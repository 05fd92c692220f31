import DnsOverStreams.Proofs.Exchange.NetworkService

namespace DnsOverStreams

namespace Exchange

variable {σ : Type} {around : Counterpart σ} {s : Scope} {w : World σ}

end Exchange

end DnsOverStreams
