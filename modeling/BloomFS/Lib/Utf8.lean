/-
Strings as UTF-8 bytes and back, with the lossy decoder of the standard library.

Valid input decodes to the string it encodes.  In invalid input each maximal
prefix of a well-formed sequence becomes one replacement character.
-/
import BloomFS.Lib.Bytes

namespace Utf8

def encode (s : String) : Bytes := s.toUTF8.data.toList

def replacement : Char := Char.ofNat 0xFFFD

/-- Bounds of the second byte and number of continuation bytes, by lead byte. -/
def leadInfo (b : UInt8) : Option (UInt8 × UInt8 × Nat) :=
  if 0xC2 ≤ b ∧ b ≤ 0xDF then some (0x80, 0xBF, 1)
  else if b = 0xE0 then some (0xA0, 0xBF, 2)
  else if b = 0xED then some (0x80, 0x9F, 2)
  else if 0xE1 ≤ b ∧ b ≤ 0xEF then some (0x80, 0xBF, 2)
  else if b = 0xF0 then some (0x90, 0xBF, 3)
  else if 0xF1 ≤ b ∧ b ≤ 0xF3 then some (0x80, 0xBF, 3)
  else if b = 0xF4 then some (0x80, 0x8F, 3)
  else none

/-- How many of the next `n` bytes continue the sequence. -/
def continuation (lo hi : UInt8) : Nat → Bytes → Nat
  | 0, _ => 0
  | _ + 1, [] => 0
  | n + 1, b :: bs => if lo ≤ b ∧ b ≤ hi then continuation 0x80 0xBF n bs + 1 else 0

/-- The code point of a lead byte and its continuation bytes. -/
def codePoint (lead : UInt8) (n : Nat) (rest : Bytes) : Nat :=
  rest.foldl (fun acc b => acc * 64 + b.toNat % 64) (lead.toNat % 2 ^ (6 - n))

/-- Decode with replacement characters.  The first argument bounds the number of
steps and is at least the length of the input. -/
def lossy : Nat → Bytes → List Char
  | 0, _ => []
  | _, [] => []
  | fuel + 1, b :: bs =>
      if b < 0x80 then Char.ofNat b.toNat :: lossy fuel bs
      else match leadInfo b with
        | none => replacement :: lossy fuel bs
        | some (lo, hi, n) =>
            let m := continuation lo hi n bs
            if m = n then Char.ofNat (codePoint b n (bs.take n)) :: lossy fuel (bs.drop n)
            else replacement :: lossy fuel (bs.drop m)

def fromUtf8Lossy (b : Bytes) : String :=
  match String.fromUTF8? ⟨b.toArray⟩ with
  | some s => s
  | none => String.ofList (lossy b.length b)

theorem fromUtf8Lossy_encode (s : String) : fromUtf8Lossy (encode s) = s := by
  have hback : (⟨(encode s).toArray⟩ : ByteArray) = s.toUTF8 := rfl
  have hdec : String.fromUTF8? s.toUTF8 = some s := by
    have hvalid : s.toUTF8.IsValidUTF8 := s.isValidUTF8
    unfold String.fromUTF8?
    rw [dif_pos hvalid]
    rfl
  rw [fromUtf8Lossy, hback, hdec]

end Utf8
