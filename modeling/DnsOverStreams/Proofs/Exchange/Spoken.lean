import DnsOverStreams.Exchange.Basic
import DnsOverStreams.Proofs.Exchange.Framing
import DnsOverStreams.Proofs.Query.ReadBack
import DnsOverStreams.Proofs.Task.Path
/-!
What is said on a stream from its opening to its end, with the answers: every sequence of calls that an
exchange can come to its end with, and the result that it then has.
-/

namespace DnsOverStreams

abbrev Calls := List (Event Request Request.Answer)

namespace Talk

/-- A unit is read to its end in as many pieces as it takes, when a part of it has been read. -/
inductive ReadsUnit (whole : Nat) : Bytes → Calls → Except IoFailure Bytes → Prop where
  | complete {got : Bytes} (h : got.length = whole) : ReadsUnit whole got [] (.ok got)
  | piece {got bytes : Bytes} {calls : Calls} {result : Except IoFailure Bytes}
      (h : got.length < whole) (hne : bytes ≠ [])
      (later : ReadsUnit whole (got ++ bytes.take (whole - got.length)) calls result) :
      ReadsUnit whole got (.answered (.read (whole - got.length)) (.ok bytes) :: calls) result
  | ended {got : Bytes} (h : got.length < whole) :
      ReadsUnit whole got [.answered (.read (whole - got.length)) (.ok [])]
        (.error (.unexpectedEnd got.length whole))
  | failed {got : Bytes} (h : got.length < whole) (e : IoFailure) :
      ReadsUnit whole got [.answered (.read (whole - got.length)) (.error e)] (.error e)

/-- The length is read, then the body, which is shown. -/
inductive Receives (message : Message) : Calls → Except Failure Reply → Prop where
  | headless {head : Calls} {e : IoFailure}
      (hhead : ReadsUnit Frame.headerLength [] head (.error e)) :
      Receives message head (.error (.ofIo e))
  | bodiless {head rest : Calls} {header : Bytes} {e : IoFailure}
      (hhead : ReadsUnit Frame.headerLength [] head (.ok header))
      (hrest : ReadsUnit (Frame.announced header) [] rest (.error e)) :
      Receives message (head ++ rest) (.error (.ofIo e))
  | complete {head rest : Calls} {header body : Bytes}
      (hhead : ReadsUnit Frame.headerLength [] head (.ok header))
      (hrest : ReadsUnit (Frame.announced header) [] rest (.ok body)) :
      Receives message (head ++ (rest ++ [.answered (.showReply body) ()])) (judge message body)

/-- The frame is written at once and shown without its length, and no more is written. -/
inductive Sends (message : Message) (raw : Bytes) : Calls → Except Failure Reply → Prop where
  | failed (e : IoFailure) :
      Sends message raw [.answered (.write (Frame.of raw)) (.error e)] (.error (.ofIo e))
  | short {n : Nat} (h : n ≠ (Frame.of raw).length) :
      Sends message raw [.answered (.write (Frame.of raw)) (.ok n)]
        (.error (.ofIo (.shortWrite n (Frame.of raw).length)))
  | through {calls : Calls} {result : Except Failure Reply} (said : Except IoFailure Unit)
      (later : Receives message calls result) :
      Sends message raw
        (.answered (.write (Frame.of raw)) (.ok (Frame.of raw).length) ::
          .answered (.showQuery raw) () :: .answered .closeStream said :: calls) result

inductive RoundTrips (query : Query) : Calls → Except Failure Reply → Prop where
  | unencoded {prepared : Query} {e : WriteError} (h : prepared.pack = .error e) :
      RoundTrips query [.answered (.prepare query) prepared] (.error (.encoding e))
  | encoded {prepared : Query} {message : Message} {raw : Bytes} {calls : Calls}
      {result : Except Failure Reply} (hm : prepared.message = .ok message)
      (hraw : message.write = .ok raw) (hfits : raw.length ≤ Frame.maxBody)
      (later : Sends message raw calls result) :
      RoundTrips query (.answered (.prepare query) prepared :: calls) result

def opened (deadline : Option Time) : Calls :=
  .answered .openStream (.ok ()) ::
    deadline.toList.map fun d => .answered (.setDeadline (some d)) (.ok ())

def released (deadline : Option Time) (closed cleared : Except IoFailure Unit) : Calls :=
  .answered .closeStream closed ::
    deadline.toList.map fun _ => .answered (.setDeadline none) cleared

/-- A stream is opened, bounded if there is a deadline, used for a round trip and released. -/
inductive Converses (deadline : Option Time) (query : Query) :
    Calls → Except Failure Reply → Prop where
  | refused (e : Failure) : Converses deadline query [.answered .openStream (.error e)] (.error e)
  | unbounded {d : Time} (h : deadline = some d) (e : IoFailure) :
      Converses deadline query
        [.answered .openStream (.ok ()), .answered (.setDeadline (some d)) (.error e)]
        (.error (.ofIo e))
  | through {calls : Calls} {result : Except Failure Reply} (closed cleared : Except IoFailure Unit)
      (h : RoundTrips query calls result) :
      Converses deadline query (opened deadline ++ (calls ++ released deadline closed cleared)) result

section

variable {σ : Type} {step : σ → (r : Request) → r.Answer → σ → Prop} {st fin : σ} {calls : Calls}

theorem readsUnit_of_goes {whole missing : Nat} {chunks : List Bytes}
    {result : Except IoFailure Bytes}
    (hw : chunks.reverse.flatten.length + missing = whole)
    (h : Task.Goes step (readRest whole chunks missing) st calls result fin) :
    ReadsUnit whole chunks.reverse.flatten calls result := by
  -- every read that goes on brings something, so less is missing after it
  induction missing using Nat.strongRecOn generalizing chunks st calls with
  | ind missing ih =>
      have hmissing : missing = whole - chunks.reverse.flatten.length := by omega
      rw [readRest] at h
      split at h
      · cases h
        exact .complete (by omega)
      · rename_i hne
        have hlt : chunks.reverse.flatten.length < whole := by omega
        cases h with
        | @call _ _ x _ mid _ es _ now later =>
            cases x with
            | error e =>
                cases later
                rw [hmissing]
                exact .failed hlt e
            | ok bytes =>
                dsimp only at later
                split at later
                · rename_i hnil
                  have hbytes : bytes = [] := (List.take_eq_nil_iff.mp hnil).resolve_left hne
                  have hgot : whole - missing = chunks.reverse.flatten.length := by omega
                  cases later
                  rw [hgot, hmissing, hbytes]
                  exact .ended hlt
                · rename_i hcons
                  have hpos := List.length_pos_iff.mpr hcons
                  have hle := List.length_take_le missing bytes
                  have hflatten : (bytes.take missing :: chunks).reverse.flatten =
                      chunks.reverse.flatten ++ bytes.take missing := by simp
                  have hreads := ih (missing - (bytes.take missing).length) (by omega) (by
                    rw [hflatten, List.length_append]
                    omega) later
                  rw [hflatten] at hreads
                  rw [hmissing] at hreads hcons ⊢
                  refine .piece hlt ?_ hreads
                  rintro rfl
                  exact hcons List.take_nil

theorem readsUnit_of_exactly {n : Nat} {result : Except IoFailure Bytes}
    (h : Task.Goes step (readExactly n) st calls result fin) : ReadsUnit n [] calls result :=
  readsUnit_of_goes (Nat.zero_add n) h

theorem receives_of_goes {message : Message} {result : Except Failure Reply}
    (h : Task.Goes step (receive message) st calls result fin) : Receives message calls result := by
  obtain ⟨front, body, mid, back, hframe, hshown, rfl⟩ := h.of_bind
  obtain ⟨head, header, mid', rest, hfirst, hlast, rfl⟩ := hframe.of_bind
  have hhead := readsUnit_of_exactly hfirst
  cases header with
  | error e =>
      cases hlast
      cases hshown
      simp only [List.append_nil]
      exact .headless hhead
  | ok header =>
      have hrest := readsUnit_of_exactly hlast
      cases body with
      | error e =>
          cases hshown
          rw [List.append_nil]
          exact .bodiless hhead hrest
      | ok body =>
          cases hshown with
          | call now later =>
              cases later
              rw [List.append_assoc]
              exact .complete hhead hrest

theorem sends_of_goes {message : Message} {raw : Bytes} {result : Except Failure Reply}
    (h : Task.Goes step (send message raw (Frame.of raw)) st calls result fin) :
    Sends message raw calls result := by
  cases h with
  | @call _ _ x _ mid _ es _ now later =>
      cases x with
      | error e =>
          cases later
          exact .failed e
      | ok n =>
          dsimp only at later
          split at later
          · rename_i hn
            cases later with
            | call shown later =>
                cases later with
                | @call _ _ said _ _ _ _ _ closed later =>
                    rw [hn]
                    exact .through said (receives_of_goes later)
          · rename_i hn
            cases later
            exact .short hn

theorem encode_of_unpacked {q : Query} {e : WriteError} (h : q.pack = .error e) :
    encode q = .error (.encoding e) := by
  unfold Query.pack at h
  unfold encode
  cases hm : q.message with
  | error e' =>
      rw [hm] at h
      cases h
      rfl
  | ok message =>
      rw [hm] at h
      change message.write = .error e at h
      simp only [h]

theorem encode_of_packed {q : Query} {message : Message} {raw : Bytes}
    (hm : q.message = .ok message) (hraw : message.write = .ok raw) :
    raw.length ≤ Frame.maxBody ∧ encode q = .ok (message, raw, Frame.of raw) := by
  have hfits : raw.length ≤ Frame.maxBody :=
    (Query.length_of_write hm hraw).trans (by decide)
  refine ⟨hfits, ?_⟩
  have hframe : Frame.encode raw = .ok (Frame.of raw) := Frame.encode_eq_ok_iff.mpr ⟨hfits, rfl⟩
  unfold encode
  simp only [hm, hraw, hframe]

theorem roundTrips_of_goes {query : Query} {result : Except Failure Reply}
    (h : Task.Goes step (roundTrip query) st calls result fin) : RoundTrips query calls result := by
  cases h with
  | @call _ _ prepared _ mid _ es _ now later =>
      dsimp only at later
      cases hp : prepared.pack with
      | error e =>
          rw [encode_of_unpacked hp] at later
          cases later
          exact .unencoded hp
      | ok raw =>
          obtain ⟨message, hm, hraw⟩ := ok_of_bind hp
          obtain ⟨hfits, hencode⟩ := encode_of_packed hm hraw
          rw [hencode] at later
          exact .encoded hm hraw hfits (sends_of_goes later)

theorem converses_of_goes {deadline : Option Time} {query : Query} {result : Except Failure Reply}
    (h : Task.Goes step (converse deadline query) st calls result fin) :
    Converses deadline query calls result := by
  cases h with
  | @call _ _ x _ mid _ es _ now later =>
      cases x with
      | error e =>
          cases later
          exact .refused e
      | ok _ =>
          cases deadline with
          | none =>
              obtain ⟨front, a, mid, back, htrip, hclosed, rfl⟩ := later.of_bind
              cases hclosed with
              | @call _ _ closed _ _ _ _ _ now later =>
                  cases later
                  exact .through closed (.ok ()) (roundTrips_of_goes htrip)
          | some d =>
              cases later with
              | @call _ _ x _ mid _ es _ now later =>
                  cases x with
                  | error e =>
                      cases later
                      exact .unbounded rfl e
                  | ok _ =>
                      obtain ⟨front, a, mid, back, htrip, hclosed, rfl⟩ := later.of_bind
                      cases hclosed with
                      | @call _ _ closed _ _ _ _ _ now later =>
                          cases later with
                          | @call _ _ cleared _ _ _ _ _ now later =>
                              cases later
                              exact .through closed cleared (roundTrips_of_goes htrip)

end

end Talk

end DnsOverStreams
