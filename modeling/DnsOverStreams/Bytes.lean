/-!
Byte strings, and the words and long words in them, written with the high byte first.
-/

namespace DnsOverStreams

abbrev Bytes := List UInt8

namespace Bytes

def ofWord (w : UInt16) : Bytes :=
  [UInt8.ofNat (w.toNat / 256), UInt8.ofNat (w.toNat % 256)]

def toWord (hi lo : UInt8) : UInt16 :=
  UInt16.ofNat (hi.toNat * 256 + lo.toNat)

def ofLong (l : UInt32) : Bytes :=
  ofWord (UInt16.ofNat (l.toNat / 65536)) ++ ofWord (UInt16.ofNat (l.toNat % 65536))

def toLong (hi lo : UInt16) : UInt32 :=
  UInt32.ofNat (hi.toNat * 65536 + lo.toNat)

@[simp] theorem length_ofWord (w : UInt16) : (ofWord w).length = 2 := rfl

@[simp] theorem length_ofLong (l : UInt32) : (ofLong l).length = 4 := rfl

theorem toWord_toNat (hi lo : UInt8) : (toWord hi lo).toNat = hi.toNat * 256 + lo.toNat := by
  have h1 := hi.toNat_lt
  have h2 := lo.toNat_lt
  simp only [toWord, UInt16.toNat_ofNat']
  omega

theorem toWord_bytes (w : UInt16) :
    toWord (UInt8.ofNat (w.toNat / 256)) (UInt8.ofNat (w.toNat % 256)) = w := by
  apply UInt16.toNat_inj.mp
  have h := w.toNat_lt
  rw [toWord_toNat]
  simp only [UInt8.toNat_ofNat']
  omega

theorem ofWord_toWord (hi lo : UInt8) : ofWord (toWord hi lo) = [hi, lo] := by
  have h1 := hi.toNat_lt
  have h2 := lo.toNat_lt
  unfold ofWord
  rw [toWord_toNat]
  congr 1
  · apply UInt8.toNat_inj.mp
    simp only [UInt8.toNat_ofNat']
    omega
  · congr 1
    apply UInt8.toNat_inj.mp
    simp only [UInt8.toNat_ofNat']
    omega

theorem toLong_words (l : UInt32) :
    toLong (UInt16.ofNat (l.toNat / 65536)) (UInt16.ofNat (l.toNat % 65536)) = l := by
  apply UInt32.toNat_inj.mp
  have h := l.toNat_lt
  simp only [toLong, UInt32.toNat_ofNat', UInt16.toNat_ofNat']
  omega

end Bytes

end DnsOverStreams
