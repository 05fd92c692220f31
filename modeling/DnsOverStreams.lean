import DnsOverStreams.CloseCode
import DnsOverStreams.Connection.Session
import DnsOverStreams.Exchange.Network
import DnsOverStreams.Exchange.Offline
import DnsOverStreams.Exchange.Script
import DnsOverStreams.Query.Basic
import DnsOverStreams.Reply
import DnsOverStreams.Responder
import DnsOverStreams.Scope.Forest
import DnsOverStreams.Settings.Transport
import DnsOverStreams.Proofs.Scope.Ending
import DnsOverStreams.Proofs.Scope.History
import DnsOverStreams.Proofs.Scope.Lineage
import DnsOverStreams.Proofs.Scope.Failing
import DnsOverStreams.Proofs.Connection.Attempt
import DnsOverStreams.Proofs.Connection.Change
import DnsOverStreams.Proofs.Connection.Noticed
import DnsOverStreams.Proofs.Connection.Line
import DnsOverStreams.Proofs.Connection.Receiving
import DnsOverStreams.Proofs.Connection.Holding
import DnsOverStreams.Proofs.Connection.Sending
import DnsOverStreams.Proofs.Connection.Settling
import DnsOverStreams.Proofs.Connection.Closing
import DnsOverStreams.Proofs.Task.Fate
import DnsOverStreams.Proofs.Task.Run
import DnsOverStreams.Proofs.Exchange.ScopeEnd
import DnsOverStreams.Proofs.Exchange.Calls
import DnsOverStreams.Proofs.Exchange.Course
import DnsOverStreams.Proofs.Exchange.Closing
import DnsOverStreams.Proofs.DomainName.Case
import DnsOverStreams.Proofs.DomainName.Written
import DnsOverStreams.Proofs.DomainName.Spelled
import DnsOverStreams.Proofs.Message.Fields
import DnsOverStreams.Proofs.Message.RoundTrip
import DnsOverStreams.Proofs.Query.Sent
import DnsOverStreams.Proofs.Reply.Acceptance
import DnsOverStreams.Proofs.Message.Written
import DnsOverStreams.Proofs.Responder.Replies
import DnsOverStreams.Proofs.Task.Answered
import DnsOverStreams.Proofs.Exchange.Delivery
import DnsOverStreams.Proofs.Exchange.Service
import DnsOverStreams.Proofs.Connection.Engaged
import DnsOverStreams.Proofs.Connection.Serving
import DnsOverStreams.Proofs.Exchange.NetworkService
import DnsOverStreams.Proofs.Exchange.Lookup
import DnsOverStreams.Proofs.Exchange.Spoken
import DnsOverStreams.Proofs.Exchange.Order
import DnsOverStreams.Proofs.Exchange.Series
import DnsOverStreams.Proofs.Exchange.Undisturbed
import DnsOverStreams.Proofs.Connection.Alone
import DnsOverStreams.Proofs.Exchange.Shared
import DnsOverStreams.Proofs.Exchange.InFrame
import DnsOverStreams.Proofs.Connection.Elapsing
import DnsOverStreams.Proofs.Exchange.Networked
import DnsOverStreams.Proofs.Connection.Answering
import DnsOverStreams.Proofs.Exchange.ReadingFrames
import DnsOverStreams.Proofs.Task.Race
import DnsOverStreams.Proofs.Exchange.Releasing
import DnsOverStreams.Proofs.Connection.Bounding
import DnsOverStreams.Proofs.Query.Blocks
import DnsOverStreams.Proofs.Connection.ClosedOnce
import DnsOverStreams.Proofs.Task.Heedless
import DnsOverStreams.Proofs.Exchange.Cleanup
import DnsOverStreams.Proofs.Exchange.Verdict
import DnsOverStreams.Proofs.Query.Encoding
import DnsOverStreams.Proofs.Exchange.Unencoded
import DnsOverStreams.Proofs.Message.Places
import DnsOverStreams.Proofs.Reply.Addresses
import DnsOverStreams.Proofs.Reply.Echo
import DnsOverStreams.Proofs.Responder.Agreement
import DnsOverStreams.Proofs.Query.Policies
import DnsOverStreams.Proofs.Query.TrailingDot
import DnsOverStreams.Proofs.Settings.Building
import DnsOverStreams.Proofs.Text.Number
import DnsOverStreams.Proofs.Address.ReadBack
import DnsOverStreams.Proofs.Document.Quoted
import DnsOverStreams.Proofs.Document.Lines
import DnsOverStreams.Proofs.Document.Growth
import DnsOverStreams.Proofs.Document.Tagged
import DnsOverStreams.Proofs.Settings.Documents
import DnsOverStreams.Proofs.CloseCode.Translation
import DnsOverStreams.Proofs.Connection.Engaged
import DnsOverStreams.Proofs.Connection.Serving
