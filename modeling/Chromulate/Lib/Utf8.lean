import Chromulate.Lib.Bytes

/-!
# Decoding UTF-8

`String::from_utf8` and `String::from_utf8_lossy` take one character after another off the front.
Where the bytes do not start with one, the first gives up, and the second puts U+FFFD for the bytes
that could have started one: the longest front of a character that is there, or else one byte.
-/

namespace Chromulate.Utf8

/-- The character that the bytes start with. -/
def firstChar (bytes : Bytes) : Option Char := bytes.toByteArray.utf8DecodeChar? 0

/-- Whether a byte goes on with a character. -/
def isContinuation (byte : UInt8) : Bool := 0x80 ≤ byte && byte ≤ 0xBF

/-- The second bytes of characters of three or four bytes, by the first. -/
def isSecond (first second : UInt8) : Bool :=
  if first = 0xE0 then 0xA0 ≤ second && second ≤ 0xBF
  else if first = 0xED then 0x80 ≤ second && second ≤ 0x9F
  else if first = 0xF0 then 0x90 ≤ second && second ≤ 0xBF
  else if first = 0xF4 then 0x80 ≤ second && second ≤ 0x8F
  else 0xE1 ≤ first && first ≤ 0xF3 && isContinuation second

/-- How many bytes U+FFFD stands for, where no character starts. -/
def invalidLen : Bytes → Nat
  | first :: second :: rest =>
    if !isSecond first second then 1
    else if 0xF0 ≤ first && rest.head?.any isContinuation then 3
    else 2
  | _ => 1

/-- `String::from_utf8_lossy`, at most so many characters. -/
def lossy : Nat → Bytes → Str
  | 0, _ => []
  | _, [] => []
  | fuel + 1, bytes =>
    match firstChar bytes with
    | some c => c :: lossy fuel (bytes.drop c.utf8Size)
    | none => '�' :: lossy fuel (bytes.drop (invalidLen bytes))

/-- `String::from_utf8_lossy`: a character takes at least one byte. -/
def fromUtf8Lossy (bytes : Bytes) : Str := lossy bytes.length bytes

/-- `String::from_utf8`, at most so many characters. -/
def strict : Nat → Bytes → Option Str
  | _, [] => some []
  | 0, _ :: _ => none
  | fuel + 1, byte :: bytes => do
    let c ← firstChar (byte :: bytes)
    let rest ← strict fuel ((byte :: bytes).drop c.utf8Size)
    some (c :: rest)

def fromUtf8 (bytes : Bytes) : Option Str := strict bytes.length bytes

theorem firstChar_append (c : Char) (bytes : Bytes) :
    firstChar (String.utf8EncodeChar c ++ bytes) = some c := by
  rw [firstChar, List.toByteArray_append]
  exact ByteArray.utf8DecodeChar?_utf8EncodeChar_append

theorem lossy_ofStr (s : Str) {fuel : Nat} (hfuel : s.length ≤ fuel) :
    lossy fuel (Bytes.ofStr s) = s := by
  induction s generalizing fuel with
  | nil => cases fuel <;> rfl
  | cons c s ih =>
    have hbytes : Bytes.ofStr (c :: s) = String.utf8EncodeChar c ++ Bytes.ofStr s := by
      simp [Bytes.ofStr]
    have hlen : (String.utf8EncodeChar c).length = c.utf8Size := String.length_utf8EncodeChar c
    cases fuel with
    | zero => cases hfuel
    | succ fuel =>
      rw [hbytes, lossy, firstChar_append]
      · dsimp only
        rw [← hlen, List.drop_left, ih (Nat.le_of_succ_le_succ hfuel)]
      · intro hnil
        have hzero := congrArg List.length (List.append_eq_nil_iff.mp hnil).1
        rw [hlen] at hzero
        exact absurd hzero c.utf8Size_pos.ne'

/-- **The bytes of a text are decoded to the text.** -/
theorem fromUtf8Lossy_ofStr (s : Str) : fromUtf8Lossy (Bytes.ofStr s) = s := by
  apply lossy_ofStr
  rw [Bytes.length_ofStr]
  induction s with
  | nil => exact Nat.le_refl _
  | cons c s ih =>
    have hpos := c.utf8Size_pos
    simp only [Text.byteLen, List.map_cons, List.sum_cons, List.length_cons] at ih ⊢
    omega

example : fromUtf8Lossy [0x68, 0xE1, 0x80, 0x33, 0xC3] = ['h', '�', '3', '�'] := by
  decide

end Chromulate.Utf8
