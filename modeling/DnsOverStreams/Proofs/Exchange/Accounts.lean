import DnsOverStreams.Proofs.Exchange.Shared
/-!
What the calls of an exchange have moved when it has come to the end of its talk: the frame of its query,
whole, and the frame of the reply that it judges, whole; or nothing if its query has no message.
-/

namespace DnsOverStreams

/-- The calls wrote all that they tried to, and have moved these bytes. -/
structure Moves (calls : Calls) (written read : Bytes) : Prop where
  whole : ∀ e ∈ calls, e.Whole
  written : calls.flatMap Event.writtenBytes = written
  read : calls.flatMap Event.readBytes = read

namespace Moves

variable {calls later : Calls} {written read more further : Bytes}

theorem append (h : Moves calls written read) (h' : Moves later more further) :
    Moves (calls ++ later) (written ++ more) (read ++ further) where
  whole e he := (List.mem_append.mp he).elim (h.whole e) (h'.whole e)
  written := by rw [List.flatMap_append, h.written, h'.written]
  read := by rw [List.flatMap_append, h.read, h'.read]

theorem nil : Moves [] [] [] :=
  ⟨nofun, rfl, rfl⟩

theorem idle (h : ∀ e ∈ calls, e.request.moves = false) : Moves calls [] [] := by
  refine ⟨fun e he frame a heq => ?_, ?_, ?_⟩
  · have hidle := h e he
    rw [heq] at hidle
    cases hidle
  all_goals
    refine List.flatMap_eq_nil_iff.mpr fun e he => ?_
    have hidle := h e he
    obtain ⟨r, a⟩ := e
    cases r with
    | write | read => cases hidle
    | _ => rfl

theorem still (r : Request) (a : r.Answer) (hr : r.moves = false) : Moves [.answered r a] [] [] :=
  idle (List.forall_mem_singleton.mpr hr)

theorem of_cleansUp (h : ∀ e ∈ calls, e.request.cleansUp = true) : Moves calls [] [] :=
  idle fun e he => Request.moves_of_cleansUp (h e he)

theorem wrote {frame : Bytes} (hne : frame ≠ []) :
    Moves [.answered (.write frame) (.ok frame.length)] frame [] := by
  refine ⟨fun e he frame' b heq => ?_, ?_, rfl⟩
  · rw [List.mem_singleton.mp he] at heq
    cases heq
    exact ⟨hne, rfl⟩
  · change frame.take frame.length ++ [] = frame
    rw [List.take_length, List.append_nil]

theorem got (room : Nat) (bytes : Bytes) :
    Moves [.answered (.read room) (.ok bytes)] [] (bytes.take room) := by
  refine ⟨fun e he frame b heq => ?_, rfl, List.append_nil _⟩
  rw [List.mem_singleton.mp he] at heq
  cases heq

end Moves

namespace Talk

variable {whole : Nat} {start body : Bytes} {calls : Calls} {result : Except Failure Reply}
variable {query : Query} {deadline : Option Time}

theorem moves_readsUnit (h : ReadsUnit whole start calls (.ok body)) :
    body.length = whole ∧ ∃ read, Moves calls [] read ∧ body = start ++ read := by
  generalize hr : (Except.ok body : Except IoFailure Bytes) = result at h
  induction h with
  | complete h =>
      cases hr
      exact ⟨h, [], .nil, (List.append_nil _).symm⟩
  | @piece got bytes calls _ h hne later ih =>
      obtain ⟨hlength, read, hmoves, hbody⟩ := ih hr
      refine ⟨hlength, _, (Moves.got (whole - got.length) bytes).append hmoves, ?_⟩
      rw [hbody, List.append_assoc]
  | ended h => cases hr
  | failed h e => cases hr

theorem moves_complete {head rest : Calls} {header : Bytes}
    (hhead : ReadsUnit Frame.headerLength [] head (.ok header))
    (hrest : ReadsUnit (Frame.announced header) [] rest (.ok body)) :
    body.length ≤ Frame.maxBody ∧
      Moves (head ++ (rest ++ [.answered (.showReply body) ()])) [] (Frame.of body) := by
  obtain ⟨hheader, _, hfirst, rfl⟩ := moves_readsUnit hhead
  obtain ⟨hbody, _, hlast, rfl⟩ := moves_readsUnit hrest
  refine ⟨hbody ▸ Frame.announced_lt header, ?_⟩
  have hshown := Moves.still (.showReply body) () rfl
  have hall := hfirst.append (hlast.append hshown)
  simp only [List.append_nil, Frame.of_announced hheader hbody] at hall
  exact hall

theorem moves_receives {message : Message} (h : Receives message calls result)
    (hr : ∀ e, result ≠ .error (.ofIo e)) :
    ∃ body, body.length ≤ Frame.maxBody ∧ Moves calls [] (Frame.of body) ∧
      result = judge message body := by
  cases h with
  | @headless calls e hhead => exact absurd rfl (hr e)
  | @bodiless head rest header e hhead hrest => exact absurd rfl (hr e)
  | complete hhead hrest =>
      obtain ⟨hbody, hmoves⟩ := moves_complete hhead hrest
      exact ⟨_, hbody, hmoves, rfl⟩

theorem moves_sent {prepared : Query} {raw : Bytes} {later : Calls} {read : Bytes}
    (query : Query) (said : Except IoFailure Unit) (h : Moves later [] read) :
    Moves (.answered (.prepare query) prepared ::
      .answered (.write (Frame.of raw)) (.ok (Frame.of raw).length) ::
        .answered (.showQuery raw) () :: .answered .closeStream said :: later) (Frame.of raw) read := by
  have hprepared := Moves.still (.prepare query) prepared rfl
  have hwrote := Moves.wrote (Frame.of_ne_nil raw)
  have hshown := Moves.still (.showQuery raw) () rfl
  have hclosed := Moves.still .closeStream said rfl
  simpa using hprepared.append (hwrote.append (hshown.append (hclosed.append h)))

/-- A result by which the exchange has come to the end of its talk: a reply that was judged, or a query
that has no message. -/
def Settled : Except Failure Reply → Prop
  | .ok _ => True
  | .error (.invalidReply _) => True
  | .error (.encoding _) => True
  | _ => False

theorem Settled.ne_ofIo {e : IoFailure} : ¬ Settled (.error (.ofIo e)) := by
  intro h
  unfold Failure.ofIo at h
  split at h <;> exact h

/-- What a settled exchange of a query with all settings made has moved, and its result. -/
inductive Accounts (prepared : Query) : Calls → Except Failure Reply → Prop where
  | unencoded {calls : Calls} {e : Failure} (h : encode prepared = .error e)
      (moves : Moves calls [] []) : Accounts prepared calls (.error e)
  | judged {calls : Calls} {message : Message} {raw body : Bytes}
      (h : encode prepared = .ok (message, raw, Frame.of raw))
      (hraw : raw.length ≤ Frame.maxBody) (hbody : body.length ≤ Frame.maxBody)
      (moves : Moves calls (Frame.of raw) (Frame.of body)) :
      Accounts prepared calls (judge message body)

namespace Accounts

variable {prepared : Query} {before after : Calls}

theorem around (h : Accounts prepared calls result) (hbefore : Moves before [] [])
    (hafter : Moves after [] []) : Accounts prepared (before ++ (calls ++ after)) result := by
  cases h with
  | unencoded h moves => exact .unencoded h (hbefore.append (moves.append hafter))
  | judged h hraw hbody moves =>
      have hall := hbefore.append (moves.append hafter)
      simp only [List.nil_append, List.append_nil] at hall
      exact .judged h hraw hbody hall

end Accounts

theorem accounts_roundTrips (h : RoundTrips query calls result) (hr : Settled result) :
    ∃ prepared, .answered (.prepare query) prepared ∈ calls ∧ Accounts prepared calls result := by
  cases h with
  | @unencoded prepared e h =>
      exact ⟨prepared, List.mem_singleton_self _, .unencoded (encode_of_unpacked h)
        (.still (.prepare query) prepared rfl)⟩
  | @encoded prepared message raw calls _ hm hraw hfits later =>
      refine ⟨prepared, List.mem_cons_self, ?_⟩
      cases later with
      | failed e => exact absurd hr Settled.ne_ofIo
      | short h => exact absurd hr Settled.ne_ofIo
      | @through calls _ said later =>
          obtain ⟨body, hbody, hmoves, rfl⟩ := moves_receives later fun e he =>
            Settled.ne_ofIo (he ▸ hr)
          exact .judged (encode_of_packed hm hraw).2 hfits hbody (moves_sent query said hmoves)

theorem moves_opened (deadline : Option Time) : Moves (opened deadline) [] [] := by
  cases deadline with
  | none => exact .still .openStream (.ok ()) rfl
  | some d =>
      have hbound := Moves.still (.setDeadline (some d)) (.ok ()) rfl
      exact (Moves.still .openStream (.ok ()) rfl).append hbound

theorem released_cleansUp (deadline : Option Time) (closed cleared : Except IoFailure Unit) :
    ∀ e ∈ released deadline closed cleared, e.request.cleansUp = true := by
  refine List.forall_mem_cons.mpr ⟨rfl, fun e he => ?_⟩
  obtain ⟨d, -, rfl⟩ := List.mem_map.mp he
  rfl

theorem moves_released (deadline : Option Time) (closed cleared : Except IoFailure Unit) :
    Moves (released deadline closed cleared) [] [] :=
  .of_cleansUp (released_cleansUp deadline closed cleared)

theorem accounts_converses (h : Converses deadline query calls result) (hr : Settled result)
    (hopen : ∀ e, .answered .openStream (.error e) ∉ calls) :
    ∃ prepared, .answered (.prepare query) prepared ∈ calls ∧ Accounts prepared calls result := by
  cases h with
  | refused e => exact absurd (List.mem_singleton_self _) (hopen e)
  | unbounded h e => exact absurd hr Settled.ne_ofIo
  | @through calls _ closed cleared h =>
      obtain ⟨prepared, hmem, haccounts⟩ := accounts_roundTrips h hr
      exact ⟨prepared, List.mem_append_right _ (List.mem_append_left _ hmem),
        haccounts.around (moves_opened deadline) (moves_released deadline closed cleared)⟩

end Talk

end DnsOverStreams
