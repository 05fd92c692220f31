import DnsOverStreams.Exchange.Basic
import DnsOverStreams.Proofs.Task.Run
/-!
The kinds of calls that a talk makes. It uses its stream and shows what it sends and receives, but it
neither dials nor closes a connection.
-/

namespace DnsOverStreams

namespace Request

def closes : Request → Bool
  | closeConnection _ => true
  | _ => false

/-- Made to give up what was used, whatever comes of it. -/
def cleansUp : Request → Bool
  | closeStream => true
  | setDeadline deadline => deadline.isNone
  | closeConnection _ => true
  | _ => false

def InTalk : Request → Prop
  | dial => False
  | closeConnection _ => False
  | _ => True

theorem cleansUp_of_closes {r : Request} (h : r.closes = true) : r.cleansUp = true := by
  cases r <;> first | rfl | cases h

theorem InTalk.not_closes {r : Request} (h : r.InTalk) : r.closes = false := by
  cases r <;> first | rfl | exact h.elim

end Request

def closings (calls : List Request) : Nat :=
  calls.countP Request.closes

theorem closings_append (xs ys : List Request) : closings (xs ++ ys) = closings xs + closings ys :=
  List.countP_append

namespace Talk

section

variable {P : Request → Prop} (reads : ∀ room, P (.read room))

include reads

theorem readRest_only (whole : Nat) (chunks : List Bytes) (missing : Nat) :
    (readRest whole chunks missing).Only P := by
  induction missing using Nat.strongRecOn generalizing chunks with
  | ind missing ih =>
      rw [readRest]
      split
      · trivial
      · refine ⟨reads missing, fun a => ?_⟩
        cases a with
        | error e => trivial
        | ok bytes =>
            change Task.Only _ (if bytes.take missing = [] then _ else _)
            split
            · trivial
            · rename_i hn hne
              have := List.length_pos_iff.mpr hne
              exact ih _ (by omega) _

theorem receive_only (shows : ∀ raw, P (.showReply raw)) (message : Message) :
    (receive message).Only P := by
  refine Task.Only.bind (Task.Only.bind (readRest_only reads _ _ _) fun header => ?_) fun body => ?_
  · cases header with
    | error e => trivial
    | ok header => exact readRest_only reads _ _ _
  · cases body with
    | error e => trivial
    | ok body => exact ⟨shows body, fun _ => trivial⟩

end

theorem receive_inTalk (message : Message) : (receive message).Only Request.InTalk :=
  receive_only (fun _ => trivial) (fun _ => trivial) message

theorem send_inTalk (message : Message) (raw frame : Bytes) :
    (send message raw frame).Only Request.InTalk := by
  refine ⟨trivial, fun a => ?_⟩
  cases a with
  | error e => trivial
  | ok n =>
      change Task.Only _ (if n = frame.length then _ else _)
      split
      · exact ⟨trivial, fun _ => ⟨trivial, fun _ => receive_inTalk message⟩⟩
      · trivial

theorem roundTrip_inTalk (query : Query) : (roundTrip query).Only Request.InTalk := by
  refine ⟨trivial, fun prepared => ?_⟩
  dsimp only
  split
  · trivial
  · exact send_inTalk _ _ _

theorem converse_inTalk (deadline : Option Time) (query : Query) :
    (converse deadline query).Only Request.InTalk := by
  refine ⟨trivial, fun opened => ?_⟩
  cases opened with
  | error e => trivial
  | ok _ =>
      cases deadline with
      | none => exact (roundTrip_inTalk query).bind fun result => ⟨trivial, fun _ => trivial⟩
      | some d =>
          refine ⟨trivial, fun bounded => ?_⟩
          cases bounded with
          | error e => trivial
          | ok _ =>
              exact (roundTrip_inTalk query).bind fun result =>
                ⟨trivial, fun _ => ⟨trivial, fun _ => trivial⟩⟩

end Talk

end DnsOverStreams
