import Chromulate.Lib.Text

/-!
# Bytes

Numbers as bytes in either order, slices and text as its UTF-8 bytes.
-/

namespace Chromulate.Bytes

/-! ## Numbers -/

/-- `to_be_bytes` of a number of `width` bytes. -/
def toBe : Nat → Nat → Bytes
  | 0, _ => []
  | width + 1, n => toBe width (n / 256) ++ [UInt8.ofNat n]

/-- `from_be_bytes`. -/
def ofBe (bytes : Bytes) : Nat := bytes.foldl (fun n byte => 256 * n + byte.toNat) 0

@[simp] theorem length_toBe (width n : Nat) : (toBe width n).length = width := by
  induction width generalizing n with
  | zero => rfl
  | succ width ih => simp [toBe, ih]

theorem ofBe_concat (bytes : Bytes) (byte : UInt8) :
    ofBe (bytes ++ [byte]) = 256 * ofBe bytes + byte.toNat := by
  simp [ofBe, List.foldl_append]

/-- Reading back what was written. -/
theorem ofBe_toBe {width n : Nat} (h : n < 256 ^ width) : ofBe (toBe width n) = n := by
  induction width generalizing n with
  | zero =>
    have hzero : n = 0 := by simpa using h
    rw [hzero]
    rfl
  | succ width ih =>
    have hlt : n / 256 < 256 ^ width := Nat.div_lt_of_lt_mul (by rwa [Nat.pow_succ'] at h)
    rw [toBe, ofBe_concat, ih hlt, UInt8.toNat_ofNat']
    omega

/-- Writing what was read. -/
theorem toBe_ofBe (bytes : Bytes) : toBe bytes.length (ofBe bytes) = bytes := by
  induction bytes using List.reverseRecOn with
  | nil => rfl
  | append_singleton bytes byte ih =>
    have hlt := byte.toNat_lt
    have hfront : (256 * ofBe bytes + byte.toNat) / 256 = ofBe bytes := by omega
    have hlast : UInt8.ofNat (256 * ofBe bytes + byte.toNat) = byte := by
      apply UInt8.toNat_inj.mp
      rw [UInt8.toNat_ofNat']
      omega
    rw [List.length_append, List.length_singleton, toBe, ofBe_concat, hfront, ih, hlast]

theorem ofBe_lt (bytes : Bytes) : ofBe bytes < 256 ^ bytes.length := by
  induction bytes using List.reverseRecOn with
  | nil => exact Nat.one_pos
  | append_singleton bytes byte ih =>
    have hlt := byte.toNat_lt
    rw [ofBe_concat, List.length_append, List.length_singleton, Nat.pow_succ]
    omega

theorem ofBe_cons (byte : UInt8) (bytes : Bytes) :
    ofBe (byte :: bytes) = byte.toNat * 256 ^ bytes.length + ofBe bytes := by
  induction bytes using List.reverseRecOn with
  | nil => simp [ofBe]
  | append_singleton bytes last ih =>
    rw [← List.cons_append, ofBe_concat, ofBe_concat, ih, List.length_append,
      List.length_singleton, Nat.pow_succ, Nat.mul_add, Nat.add_assoc, Nat.mul_left_comm,
      Nat.mul_comm 256 (256 ^ bytes.length)]

/-- `to_le_bytes` of a number of `width` bytes. -/
def toLe (width n : Nat) : Bytes := (toBe width n).reverse

/-- `from_le_bytes`. -/
def ofLe (bytes : Bytes) : Nat := ofBe bytes.reverse

@[simp] theorem length_toLe (width n : Nat) : (toLe width n).length = width := by
  simp [toLe]

theorem ofLe_toLe {width n : Nat} (h : n < 256 ^ width) : ofLe (toLe width n) = n := by
  rw [ofLe, toLe, List.reverse_reverse, ofBe_toBe h]

/-! ## Slices -/

/-- `&bytes[start..stop]`. -/
def slice (bytes : Bytes) (start stop : Nat) : Option Bytes :=
  if start ≤ stop ∧ stop ≤ bytes.length then some ((bytes.drop start).take (stop - start))
  else none

theorem slice_append (front middle rest : Bytes) :
    slice (front ++ (middle ++ rest)) front.length (front.length + middle.length) =
      some middle := by
  rw [slice, if_pos (by simp)]
  simp

/-! ## Text -/

/-- `str::as_bytes`. -/
def ofStr (s : Str) : Bytes := s.flatMap String.utf8EncodeChar

theorem length_ofStr (s : Str) : (ofStr s).length = Text.byteLen s := by
  induction s with
  | nil => rfl
  | cons c s ih =>
    simp only [ofStr, List.flatMap_cons, List.length_append] at ih ⊢
    rw [ih]
    simp [Text.byteLen]

theorem ofStr_injective : Function.Injective ofStr := by
  intro s t h
  have hencode : s.utf8Encode = t.utf8Encode := congrArg List.toByteArray h
  have hstring : String.ofList s = String.ofList t := by
    apply String.toByteArray_inj.mp
    simpa using hencode
  exact String.ofList_injective hstring

def toAsciiLowercase (byte : UInt8) : UInt8 :=
  if 65 ≤ byte ∧ byte ≤ 90 then byte + 32 else byte

theorem toAsciiLowercase_of_le {byte : UInt8} (h : 128 ≤ byte.toNat) :
    toAsciiLowercase byte = byte := by
  rw [toAsciiLowercase, if_neg]
  rintro ⟨_, hle⟩
  have : byte.toNat ≤ 90 := UInt8.le_iff_toNat_le.mp hle
  omega

variable {c : Char}

theorem le_of_mem_utf8EncodeChar (h : 127 < c.toNat) {byte : UInt8}
    (hmem : byte ∈ String.utf8EncodeChar c) : 128 ≤ byte.toNat := by
  have hv : ¬ c.val.toNat ≤ 127 := by
    show ¬ c.toNat ≤ 127
    omega
  have hrange : ∀ n, 128 ≤ n → n < 256 → 128 ≤ (UInt8.ofNat n).toNat := by
    intro n hle hlt
    rw [UInt8.toNat_ofNat']
    omega
  unfold String.utf8EncodeChar at hmem
  rw [if_neg hv] at hmem
  split_ifs at hmem <;>
  · simp only [List.mem_cons, List.not_mem_nil, or_false] at hmem
    rcases hmem with rfl | rfl | rfl | rfl <;> exact hrange _ (by omega) (by omega)

theorem utf8EncodeChar_toLower (c : Char) :
    String.utf8EncodeChar c.toLower = (String.utf8EncodeChar c).map toAsciiLowercase := by
  by_cases hascii : c.toNat ≤ 127
  · have hall : ∀ n : Fin 128, String.utf8EncodeChar (Char.ofNat n).toLower =
        (String.utf8EncodeChar (Char.ofNat n)).map toAsciiLowercase := by decide
    have h := hall ⟨c.toNat, by omega⟩
    simpa [Char.ofNat_toNat] using h
  · rw [Text.toLower_of_not_upper (by omega), List.map_congr_left, List.map_id]
    intro byte hmem
    exact toAsciiLowercase_of_le (le_of_mem_utf8EncodeChar (by omega) hmem)

/-- Folding the case of a text folds the case of its bytes. -/
theorem ofStr_toAsciiLowercase (s : Str) :
    ofStr (Text.toAsciiLowercase s) = (ofStr s).map toAsciiLowercase := by
  induction s with
  | nil => rfl
  | cons c s ih =>
    rw [Text.toAsciiLowercase] at ih ⊢
    simp only [ofStr, List.map_cons, List.flatMap_cons, List.map_append] at ih ⊢
    rw [ih, utf8EncodeChar_toLower]

def isAsciiWhitespace (byte : UInt8) : Bool := [32, 9, 10, 12, 13].contains byte

def trimAscii (bytes : Bytes) : Bytes :=
  (bytes.dropWhile isAsciiWhitespace).rdropWhile isAsciiWhitespace

end Chromulate.Bytes
