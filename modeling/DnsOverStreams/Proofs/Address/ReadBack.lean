import DnsOverStreams.Address.Text
import DnsOverStreams.Proofs.Text.Number
/-!
Addresses as texts, read back. Whichever zeros an address of version 6 leaves out, they are put in again.
-/

namespace DnsOverStreams

open Reader

namespace Ipv4

variable {rest cs : List Char}

def decimal (b : UInt8) : List Char :=
  Nat.toDigits 10 b.toNat

theorem toList_text (ip : Ipv4) :
    ip.text.toList = decimal ip.a ++ '.' :: (decimal ip.b ++ '.' :: (decimal ip.c ++ '.' ::
      decimal ip.d)) := by
  simp [text, bytes, decimal, String.intercalate_cons_cons]

theorem readByte_decimal (b : UInt8) (h : Parts 10 rest) : readByte (decimal b ++ rest) = some (b, rest) := by
  unfold readByte decimal
  rw [bind_eq (number_toDigits (by decide) (by decide) false b.toNat_lt
    (by rintro k ⟨⟩; exact ⟨by decide, Nat.lt_trans b.toNat_lt (by decide)⟩) h)]
  change some (UInt8.ofNat b.toNat, rest) = _
  rw [UInt8.ofNat_toNat]

theorem read_text (ip : Ipv4) (h : Parts 10 rest) : read (ip.text.toList ++ rest) = some (ip, rest) := by
  have hdot (cs : List Char) : Parts 10 ('.' :: cs) := parts_cons (by decide) cs
  rw [toList_text]
  simp only [List.append_assoc, List.cons_append]
  unfold read
  rw [bind_eq (readByte_decimal ip.a (hdot _)), bind_eq (given_self _ _),
    bind_eq (readByte_decimal ip.b (hdot _)), bind_eq (given_self _ _),
    bind_eq (readByte_decimal ip.c (hdot _)), bind_eq (given_self _ _),
    bind_eq (readByte_decimal ip.d h)]
  rfl

theorem read_none_of_parts (h : Parts 10 cs) : read cs = none :=
  bind_none _ (bind_none _ (number_none _ _ _ h))

theorem read_none_of_noDot (h : '.' ∉ cs) : read cs = none := by
  unfold read
  cases hbyte : readByte cs with
  | none => exact bind_none _ hbyte
  | some r =>
      obtain ⟨b, rest⟩ := r
      obtain ⟨n, middle, hnumber, hpure⟩ := of_bind hbyte
      cases hpure
      rw [bind_eq hbyte]
      exact bind_none _ (given_none fun hmem => h ((number_suffix hnumber).mem hmem))

end Ipv4

namespace Ipv6

variable {rest cs : List Char} {ip : Ipv6}

def hexadecimal (s : UInt16) : List Char :=
  Nat.toDigits 16 s.toNat

def further (ss : List UInt16) : List Char :=
  ss.flatMap fun s => ':' :: hexadecimal s

theorem toList_segmentsText (s : UInt16) (ss : List UInt16) :
    (segmentsText (s :: ss)).toList = hexadecimal s ++ further ss := by
  induction ss generalizing s with
  | nil => simp [segmentsText, segmentText, hexadecimal, further]
  | cons t ss ih =>
      have ht := ih t
      simp only [segmentsText, List.map_cons, String.intercalate_cons_cons, String.toList_append] at ht ⊢
      rw [ht]
      simp [segmentText, hexadecimal, further]

theorem noDot_hexadecimal (s : UInt16) : '.' ∉ hexadecimal s :=
  not_mem_toDigits (by decide) (Nat.le_refl 16) (by decide) s.toNat

theorem noDot_further (ss : List UInt16) : '.' ∉ further ss := by
  intro h
  obtain ⟨s, -, h⟩ := List.mem_flatMap.mp h
  rcases List.mem_cons.mp h with h | h
  · cases h
  · exact noDot_hexadecimal s h

theorem noDot_segmentsText (ss : List UInt16) : '.' ∉ (segmentsText ss).toList := by
  cases ss with
  | nil => decide
  | cons s ss =>
      rw [toList_segmentsText]
      exact mt List.mem_append.mp (not_or.mpr ⟨noDot_hexadecimal s, noDot_further ss⟩)

structure Stops (rest : List Char) : Prop where
  parts : Parts 16 rest
  next : separated false readSegment rest = none
  noDot : '.' ∉ rest

theorem parts_further (h : Parts 16 rest) (ss : List UInt16) : Parts 16 (further ss ++ rest) := by
  cases ss with
  | nil => exact h
  | cons s ss => exact parts_cons (by decide) _

theorem readSegment_hexadecimal (s : UInt16) (h : Parts 16 rest) :
    readSegment (hexadecimal s ++ rest) = some (s, rest) := by
  unfold readSegment hexadecimal
  rw [bind_eq (number_toDigits (by decide) (Nat.le_refl 16) true s.toNat_lt
    (by rintro k ⟨⟩; exact ⟨by decide, s.toNat_lt⟩) h)]
  change some (UInt16.ofNat s.toNat, rest) = _
  rw [UInt16.ofNat_toNat]

theorem noVersion4 (n : Nat) (first : Bool) (h : '.' ∉ cs) :
    (if 0 < n then separated first Ipv4.read cs else none) = none := by
  split
  · cases first with
    | true => exact Ipv4.read_none_of_noDot h
    | false =>
        cases cs with
        | nil => rfl
        | cons c cs =>
            change (given ':' >>= fun _ => Ipv4.read) (c :: cs) = none
            by_cases hc : c = ':'
            · subst hc
              rw [bind_eq (given_self _ _)]
              exact Ipv4.read_none_of_noDot (List.not_mem_of_not_mem_cons h)
            · exact bind_none _ (given_other hc cs)
  · rfl

theorem readSegments_none (n : Nat) (first : Bool) (h : '.' ∉ cs)
    (hnext : separated first readSegment cs = none) : readSegments n first cs = (([], false), cs) := by
  cases n with
  | zero => rfl
  | succ n =>
      unfold readSegments
      rw [noVersion4 n first h, hnext]

theorem readSegments_cons {n : Nat} {first : Bool} {s : UInt16} (h : '.' ∉ cs)
    (hnext : separated first readSegment cs = some (s, rest)) :
    readSegments (n + 1) first cs =
      ((s :: (readSegments n false rest).1.1, (readSegments n false rest).1.2),
        (readSegments n false rest).2) := by
  rw [readSegments, noVersion4 n first h, hnext]

theorem readSegments_further {n : Nat} (hrest : Stops rest) (ss : List UInt16) (hn : ss.length ≤ n) :
    readSegments n false (further ss ++ rest) = ((ss, false), rest) := by
  induction ss generalizing n with
  | nil => exact readSegments_none n false hrest.noDot hrest.next
  | cons s ss ih =>
      cases n with
      | zero => cases hn
      | succ n =>
          have hdot : '.' ∉ further (s :: ss) ++ rest :=
            mt List.mem_append.mp (not_or.mpr ⟨noDot_further _, hrest.noDot⟩)
          have hnext : separated false readSegment (further (s :: ss) ++ rest) =
              some (s, further ss ++ rest) := by
            change (given ':' >>= fun _ => readSegment) (':' :: hexadecimal s ++ further ss ++ rest) = _
            rw [List.cons_append, List.cons_append, bind_eq (given_self _ _), List.append_assoc]
            exact readSegment_hexadecimal s (parts_further hrest.parts ss)
          rw [readSegments_cons hdot hnext, ih (Nat.le_of_succ_le_succ hn)]

theorem readSegments_text {n : Nat} (hrest : Stops rest) (ss : List UInt16) (hn : ss.length ≤ n) :
    readSegments n true ((segmentsText ss).toList ++ rest) = ((ss, false), rest) := by
  cases ss with
  | nil => exact readSegments_none n true hrest.noDot (bind_none _ (number_none _ _ _ hrest.parts))
  | cons s ss =>
      cases n with
      | zero => cases hn
      | succ n =>
          have hdot : '.' ∉ (segmentsText (s :: ss)).toList ++ rest :=
            mt List.mem_append.mp (not_or.mpr ⟨noDot_segmentsText _, hrest.noDot⟩)
          have hnext : separated true readSegment (hexadecimal s ++ (further ss ++ rest)) =
              some (s, further ss ++ rest) :=
            readSegment_hexadecimal s (parts_further hrest.parts ss)
          rw [toList_segmentsText, List.append_assoc] at hdot ⊢
          rw [readSegments_cons hdot hnext,
            readSegments_further hrest ss (Nat.le_of_succ_le_succ hn)]

theorem read_full (h : readSegments 8 true cs = ((ip.segments, false), rest)) :
    read cs = some (ip, rest) := by
  unfold read
  rw [h]
  dsimp only
  rw [if_pos ip.length_segments, ofList?_segments]
  rfl

theorem read_shortened {before behind : List UInt16} {v4 : Bool} {middle : List Char}
    (hbefore : readSegments 8 true cs = ((before, false), ':' :: ':' :: middle))
    (hbehind : readSegments (7 - before.length) true middle = ((behind, v4), rest))
    (hshort : before.length ≠ 8)
    (hip : before ++ List.replicate (8 - before.length - behind.length) 0 ++ behind = ip.segments) :
    read cs = some (ip, rest) := by
  unfold read
  rw [hbefore]
  dsimp only
  rw [if_neg hshort, if_neg Bool.false_ne_true]
  simp only [given_self, Option.bind_eq_bind, Option.bind_some, hbehind, hip, ofList?_segments]
  rfl

def Zeros (ss : List UInt16) (r : SegmentRun) : Prop :=
  ∃ before behind, ss = before ++ List.replicate r.length 0 ++ behind ∧ before.length = r.start

theorem Zeros.append {ss : List UInt16} {r : SegmentRun} (h : Zeros ss r) (more : List UInt16) :
    Zeros (ss ++ more) r := by
  obtain ⟨before, behind, rfl, hstart⟩ := h
  exact ⟨before, behind ++ more, by simp only [List.append_assoc], hstart⟩

def ZerosLast (ss : List UInt16) (r : SegmentRun) : Prop :=
  r.length = 0 ∨ ∃ before, ss = before ++ List.replicate r.length 0 ∧ before.length = r.start

theorem exists_grown {front : List UInt16} {current : SegmentRun} (h : ZerosLast front current) :
    let grown : SegmentRun :=
      if current.length = 0 then ⟨front.length, 1⟩ else ⟨current.start, current.length + 1⟩
    ∃ before, front ++ [0] = before ++ List.replicate grown.length 0 ∧ before.length = grown.start := by
  intro grown
  by_cases hzero : current.length = 0
  · have hgrown : grown = ⟨front.length, 1⟩ := if_pos hzero
    rw [hgrown]
    exact ⟨front, rfl, rfl⟩
  · have hgrown : grown = ⟨current.start, current.length + 1⟩ := if_neg hzero
    obtain ⟨before, rfl, hstart⟩ := h.resolve_left hzero
    rw [hgrown]
    exact ⟨before, by rw [List.replicate_succ', List.append_assoc], hstart⟩

theorem zeros_longestFrom {front ss : List UInt16} {current best : SegmentRun}
    (hcurrent : ZerosLast front current) (hbest : Zeros front best) :
    Zeros (front ++ ss) (longestFrom front.length current best ss) := by
  induction ss generalizing front current best with
  | nil => rwa [List.append_nil]
  | cons s ss ih =>
      have hlength : (front ++ [s]).length = front.length + 1 := List.length_append
      have hwhole : front ++ s :: ss = (front ++ [s]) ++ ss := by simp
      unfold longestFrom
      rw [hwhole, ← hlength]
      split
      · rename_i hs
        subst hs
        obtain ⟨before, hfront, hstart⟩ := exists_grown hcurrent
        generalize (if current.length = 0 then (⟨front.length, 1⟩ : SegmentRun)
          else ⟨current.start, current.length + 1⟩) = grown at hfront hstart ⊢
        refine ih (.inr ⟨before, hfront, hstart⟩) ?_
        split
        · exact ⟨before, [], by rw [List.append_nil]; exact hfront, hstart⟩
        · exact hbest.append [0]
      · exact ih (.inl rfl) (hbest.append [s])

theorem zeros_longestZeros (ip : Ipv6) :
    ip.segments = ip.segments.take ip.longestZeros.start ++
      List.replicate ip.longestZeros.length 0 ++
        ip.segments.drop (ip.longestZeros.start + ip.longestZeros.length) := by
  obtain ⟨before, behind, hsegments, hstart⟩ : Zeros ([] ++ ip.segments) ip.longestZeros :=
    zeros_longestFrom (.inl rfl) ⟨[], [], rfl, rfl⟩
  rw [List.nil_append] at hsegments
  have htake : ip.segments.take ip.longestZeros.start = before := by
    rw [hsegments, List.append_assoc]
    exact List.take_left' hstart
  have hdrop : ip.segments.drop (ip.longestZeros.start + ip.longestZeros.length) = behind := by
    rw [hsegments]
    exact List.drop_left' (by rw [List.length_append, List.length_replicate, hstart])
  rw [htake, hdrop]
  exact hsegments

theorem segments_of_mapped {v4 : Ipv4} (h : ip.mapped? = some v4) :
    ip.segments = [0, 0, 0, 0, 0, 0xffff] ++ v4.segments := by
  unfold mapped? at h
  obtain ⟨hfront, hback⟩ := Option.ite_none_right_eq_some.mp h
  have hlength : ((ip.segments.take 6).flatMap Bytes.ofWord).length = 12 := by rw [hfront]; rfl
  have hbytes : ip.bytes = (ip.segments.take 6).flatMap Bytes.ofWord ++
      (ip.segments.drop 6).flatMap Bytes.ofWord := by
    rw [← List.flatMap_append, List.take_append_drop]
    rfl
  rw [hbytes, List.drop_left' hlength] at hback
  have hdrop : ip.segments.drop 6 = v4.segments := by
    rw [← words_flatMap (ip.segments.drop 6), Ipv4.ofBytes?_eq_some hback]
    rfl
  rw [← hfront, ← hdrop, List.take_append_drop]

theorem stops_colons (hdot : '.' ∉ cs) : Stops (':' :: ':' :: cs) where
  parts := parts_cons (by decide) _
  next := by
    change (given ':' >>= fun _ => readSegment) _ = none
    rw [bind_eq (given_self _ _)]
    exact bind_none _ (number_none _ _ _ (parts_cons (by decide) cs))
  noDot := by simpa using hdot

theorem stops_cons {c : Char} (hparts : digit? 16 c = none) (hcolon : c ≠ ':') (hdot : '.' ∉ c :: cs) :
    Stops (c :: cs) where
  parts := parts_cons hparts cs
  next := bind_none _ (given_other hcolon cs)
  noDot := hdot

theorem readSegments_colon (n : Nat) (cs : List Char) :
    readSegments n true (':' :: cs) = (([], false), ':' :: cs) := by
  have hparts : Parts 16 (':' :: cs) := parts_cons (by decide) cs
  cases n with
  | zero => rfl
  | succ n =>
      have hv4 : (if 0 < n then separated true Ipv4.read (':' :: cs) else none) = none :=
        ite_eq_right_iff.mpr fun _ => Ipv4.read_none_of_parts (hparts.of_le (by decide))
      have hnext : separated true readSegment (':' :: cs) = none :=
        bind_none _ (number_none _ _ _ hparts)
      rw [readSegments, hv4, hnext]

theorem readSegments_version4 {n : Nat} (hn : 1 < n) (v4 : Ipv4) (hrest : Stops rest) :
    readSegments n false (':' :: (v4.text.toList ++ rest)) = ((v4.segments, true), rest) := by
  have hv4 : separated false Ipv4.read (':' :: (v4.text.toList ++ rest)) = some (v4, rest) := by
    change (given ':' >>= fun _ => Ipv4.read) _ = _
    rw [bind_eq (given_self _ _)]
    exact Ipv4.read_text v4 (hrest.parts.of_le (by decide))
  obtain ⟨n, rfl⟩ : ∃ m, n = m + 1 := ⟨n - 1, by omega⟩
  rw [readSegments, if_pos (by omega), hv4]

theorem read_mapped {v4 : Ipv4} (h : ip.mapped? = some v4) (hrest : Stops rest) :
    read ("::ffff:".toList ++ (v4.text.toList ++ rest)) = some (ip, rest) := by
  have hffff : readSegments 7 true ("ffff".toList ++ ':' :: (v4.text.toList ++ rest)) =
      ((0xffff :: v4.segments, true), rest) := by
    have hv4 : (if 0 < 6 then separated true Ipv4.read ("ffff".toList ++ ':' :: (v4.text.toList ++ rest))
        else none) = none :=
      ite_eq_right_iff.mpr fun _ => Ipv4.read_none_of_parts (parts_cons (by decide) _)
    have hnext : separated true readSegment ("ffff".toList ++ ':' :: (v4.text.toList ++ rest)) =
        some (0xffff, ':' :: (v4.text.toList ++ rest)) :=
      readSegment_hexadecimal 0xffff (parts_cons (by decide) _)
    rw [readSegments, hv4, hnext]
    dsimp only
    rw [readSegments_version4 (by decide) v4 hrest]
  refine read_shortened (readSegments_colon 8 _) hffff (by decide) ?_
  rw [segments_of_mapped h]
  rfl

theorem read_text (ip : Ipv6) (hrest : Stops rest) : read (ip.text.toList ++ rest) = some (ip, rest) := by
  unfold text
  cases hmapped : ip.mapped? with
  | some v4 =>
      rw [String.toList_append, List.append_assoc]
      exact read_mapped hmapped hrest
  | none =>
      dsimp only
      split
      · rename_i hlong
        have hzeros := zeros_longestZeros ip
        have hlength := congrArg List.length hzeros
        simp only [List.length_append, List.length_replicate, ip.length_segments] at hlength
        have hdot : '.' ∉ (segmentsText (ip.segments.drop (ip.longestZeros.start +
            ip.longestZeros.length))).toList ++ rest :=
          mt List.mem_append.mp (not_or.mpr ⟨noDot_segmentsText _, hrest.noDot⟩)
        simp only [String.toList_append, List.append_assoc]
        refine read_shortened (readSegments_text (stops_colons hdot) _ (by omega))
          (readSegments_text hrest _ (by omega)) (by omega) ?_
        have hcount : 8 - (ip.segments.take ip.longestZeros.start).length -
            (ip.segments.drop (ip.longestZeros.start + ip.longestZeros.length)).length =
              ip.longestZeros.length := by omega
        rw [hcount]
        exact hzeros.symm
      · exact read_full (readSegments_text hrest ip.segments (Nat.le_of_eq ip.length_segments))

end Ipv6

namespace SocketAddress

variable {rest : List Char}

theorem noDot_decimal (n : Nat) : '.' ∉ Nat.toDigits 10 n :=
  not_mem_toDigits (by decide) (by decide) (by decide) n

theorem readPort_decimal (p : UInt16) : readPort (':' :: Nat.toDigits 10 p.toNat) = some (p, []) := by
  have hnumber : number 10 none true 65536 (Nat.toDigits 10 p.toNat ++ []) = some (p.toNat, []) :=
    number_toDigits (by decide) (by decide) true p.toNat_lt (by rintro k ⟨⟩) (by rintro c ⟨⟩)
  rw [List.append_nil] at hnumber
  unfold readPort
  rw [bind_eq (given_self _ _), bind_eq hnumber]
  change some (UInt16.ofNat p.toNat, []) = _
  rw [UInt16.ofNat_toNat]

def zoneText (zone : UInt32) : List Char :=
  if zone = 0 then [] else '%' :: Nat.toDigits 10 zone.toNat

theorem readOptionalZone_text (zone : UInt32) (rest : List Char) :
    readOptionalZone (zoneText zone ++ ']' :: rest) = some (zone, ']' :: rest) := by
  unfold zoneText
  split
  · rename_i hzone
    have hnone : readZone (']' :: rest) = none := bind_none _ (given_other (by decide) rest)
    unfold readOptionalZone
    rw [List.nil_append, hnone, hzone]
  · have hnumber : number 10 none true UInt32.size (Nat.toDigits 10 zone.toNat ++ ']' :: rest) =
        some (zone.toNat, ']' :: rest) :=
      number_toDigits (by decide) (by decide) true zone.toNat_lt (by rintro k ⟨⟩)
        (parts_cons (by decide) rest)
    have hzone : readZone ('%' :: Nat.toDigits 10 zone.toNat ++ ']' :: rest) =
        some (zone, ']' :: rest) := by
      unfold readZone
      rw [List.cons_append, bind_eq (given_self _ _), bind_eq hnumber]
      change some (UInt32.ofNat zone.toNat, _) = _
      rw [UInt32.ofNat_toNat]
    unfold readOptionalZone
    rw [hzone]

theorem stops_zoneText (zone : UInt32) (h : '.' ∉ rest) : Ipv6.Stops (zoneText zone ++ ']' :: rest) := by
  unfold zoneText
  split
  · exact Ipv6.stops_cons (by decide) (by decide) (by simpa using h)
  · exact Ipv6.stops_cons (by decide) (by decide) (by simp [noDot_decimal, h])

theorem readV4_text (ip : Ipv4) (p : UInt16) : readV4 (v4 ip p).text.toList = some (v4 ip p, []) := by
  have htext : (v4 ip p).text.toList = ip.text.toList ++ ':' :: Nat.toDigits 10 p.toNat := by
    simp [text]
  rw [htext]
  unfold readV4
  rw [bind_eq (Ipv4.read_text ip (parts_cons (by decide) _)), bind_eq (readPort_decimal p)]
  rfl

theorem toList_text_v6 (ip : Ipv6) (zone : UInt32) (p : UInt16) :
    (v6 ip zone p).text.toList =
      '[' :: (ip.text.toList ++ (zoneText zone ++ ']' :: ':' :: Nat.toDigits 10 p.toNat)) := by
  unfold zoneText
  by_cases hzone : zone = 0 <;> simp [text, hzone]

theorem readV6_text (ip : Ipv6) (zone : UInt32) (p : UInt16) :
    readV6 (v6 ip zone p).text.toList = some (v6 ip zone p, []) := by
  have hdot : '.' ∉ ':' :: Nat.toDigits 10 p.toNat := by simp [noDot_decimal]
  rw [toList_text_v6]
  unfold readV6
  rw [bind_eq (given_self _ _), bind_eq (Ipv6.read_text ip (stops_zoneText zone hdot)),
    bind_eq (readOptionalZone_text zone _), bind_eq (given_self _ _), bind_eq (readPort_decimal p)]
  rfl

theorem ofText?_text (a : SocketAddress) : ofText? a.text = some a := by
  unfold ofText? whole
  cases a with
  | v4 ip p => rw [readV4_text]
  | v6 ip zone p =>
      have hnone : readV4 (v6 ip zone p).text.toList = none := by
        rw [toList_text_v6]
        exact bind_none _ (Ipv4.read_none_of_parts (parts_cons (by decide) _))
      rw [hnone, readV6_text]

end SocketAddress

end DnsOverStreams
