import Chromulate.Lib.Text
import Mathlib.Data.List.Dedup

/-!
# Header fields

The part of the `http` crate that the cookie jar and the cache are written against: header
values, which are bytes of a restricted set and not always text; header names, which are
lower-case tokens; and header maps, which keep every value of a name in order.
-/

namespace Chromulate

/-! ## Values -/

/-- The bytes a header value may hold: everything but the control characters, tab excepted. -/
def isValidByte (b : UInt8) : Bool := (32 ≤ b && b != 127) || b == 9

/-- The bytes `to_str` reads: visible ASCII, space and tab. -/
def isVisibleByte (b : UInt8) : Bool := (32 ≤ b && b < 127) || b == 9

structure HeaderValue where
  bytes : Bytes
  valid : bytes.all isValidByte = true
  deriving DecidableEq

namespace HeaderValue

def fromBytes (bytes : Bytes) : Option HeaderValue :=
  if h : bytes.all isValidByte = true then some ⟨bytes, h⟩ else none

/-- `HeaderValue::from_str`: the UTF-8 bytes of the text. -/
def fromStr (text : Str) : Option HeaderValue := fromBytes (text.flatMap String.utf8EncodeChar)

/-- `HeaderValue::from_static`, for text known to be valid. -/
def fromStatic (text : String) : HeaderValue := (fromStr text.toList).getD ⟨[], rfl⟩

def toStr (value : HeaderValue) : Option Str :=
  if value.bytes.all isVisibleByte then some (value.bytes.map fun b => Char.ofNat b.toNat)
  else none

/-- Every byte read as one character, whether `to_str` would read it or not. -/
def latin1 (value : HeaderValue) : Str := value.bytes.map fun b => Char.ofNat b.toNat

theorem latin1_of_toStr {value : HeaderValue} {text : Str} (h : value.toStr = some text) :
    value.latin1 = text := by
  unfold toStr at h
  split at h
  · exact Option.some.inj h
  · cases h

/-- `HeaderValue::from` for an unsigned number: its decimal digits. -/
def ofNat (n : Nat) : HeaderValue := fromStatic (toString n)

end HeaderValue

/-- The characters that survive a header value in both directions. -/
def isHeaderSafe (c : Char) : Bool := c == '\t' || (0x20 ≤ c.toNat && c.toNat ≤ 0x7e)

theorem utf8EncodeChar_of_safe {c : Char} (h : isHeaderSafe c) :
    ∃ b : UInt8, String.utf8EncodeChar c = [b] ∧ isVisibleByte b ∧ Char.ofNat b.toNat = c := by
  have hlt : c.toNat < 127 := by
    unfold isHeaderSafe at h
    simp only [Bool.or_eq_true, beq_iff_eq, Bool.and_eq_true, decide_eq_true_eq] at h
    rcases h with rfl | ⟨-, h⟩
    · decide
    · omega
  have hval : c.val.toNat < 127 := hlt
  have hsize : c.utf8Size = 1 := Text.utf8Size_of_ascii (by omega)
  have hbyte : c.val.toUInt8.toNat = c.toNat := by
    rw [UInt32.toNat_toUInt8]
    exact Nat.mod_eq_of_lt (by omega)
  refine ⟨c.val.toUInt8, String.utf8EncodeChar_eq_singleton hsize, ?_, ?_⟩
  · unfold isHeaderSafe at h
    unfold isVisibleByte
    simp only [Bool.or_eq_true, beq_iff_eq, Bool.and_eq_true, decide_eq_true_eq] at h ⊢
    rcases h with rfl | ⟨h, -⟩
    · right; decide
    · left
      rw [UInt8.le_iff_toNat_le, UInt8.lt_iff_toNat_lt, hbyte]
      exact ⟨h, hlt⟩
  · rw [hbyte]
    exact Char.ofNat_toNat c

theorem isValidByte_of_visible {b : UInt8} (h : isVisibleByte b) : isValidByte b := by
  unfold isVisibleByte at h
  unfold isValidByte
  simp only [Bool.or_eq_true, beq_iff_eq, Bool.and_eq_true, decide_eq_true_eq, bne_iff_ne] at h ⊢
  rcases h with ⟨h₁, h₂⟩ | h
  · left
    refine ⟨h₁, ?_⟩
    rintro rfl
    exact absurd h₂ (by decide)
  · exact Or.inr h

/-- **Safe text goes through a header value unchanged.** -/
theorem HeaderValue.fromStr_of_safe {text : Str} (h : ∀ c ∈ text, isHeaderSafe c) :
    ∃ value, HeaderValue.fromStr text = some value ∧ value.toStr = some text := by
  have hbytes : ∃ bytes : Bytes, text.flatMap String.utf8EncodeChar = bytes ∧
      bytes.all isVisibleByte ∧ bytes.map (fun b => Char.ofNat b.toNat) = text := by
    induction text with
    | nil => exact ⟨[], rfl, rfl, rfl⟩
    | cons c text ih =>
      obtain ⟨b, henc, hvis, hchar⟩ := utf8EncodeChar_of_safe (h c List.mem_cons_self)
      obtain ⟨bytes, hrest, hall, hmap⟩ := ih fun d hd => h d (List.mem_cons_of_mem _ hd)
      refine ⟨b :: bytes, ?_, ?_, ?_⟩
      · rw [List.flatMap_cons, henc, hrest]; rfl
      · simp [hvis, hall]
      · rw [List.map_cons, hchar, hmap]
  obtain ⟨bytes, henc, hall, hmap⟩ := hbytes
  have hvalid : bytes.all isValidByte = true := by
    rw [List.all_eq_true] at hall ⊢
    exact fun b hb => isValidByte_of_visible (hall b hb)
  refine ⟨⟨bytes, hvalid⟩, ?_, ?_⟩
  · rw [fromStr, henc, fromBytes, dif_pos hvalid]
  · rw [toStr, if_pos hall, hmap]

/-- Text read from a header value is safe. -/
theorem HeaderValue.safe_of_toStr {value : HeaderValue} {text : Str}
    (h : value.toStr = some text) : ∀ c ∈ text, isHeaderSafe c := by
  unfold toStr at h
  split at h
  · rename_i hall
    cases h
    intro c hc
    obtain ⟨b, hb, rfl⟩ := List.mem_map.mp hc
    have hvis := List.all_eq_true.mp hall b hb
    unfold isVisibleByte at hvis
    simp only [Bool.or_eq_true, beq_iff_eq, Bool.and_eq_true, decide_eq_true_eq] at hvis
    rcases hvis with ⟨h₁, h₂⟩ | rfl
    · rw [UInt8.le_iff_toNat_le] at h₁
      rw [UInt8.lt_iff_toNat_lt] at h₂
      have hlo : 32 ≤ b.toNat := h₁
      have hhi : b.toNat < 127 := h₂
      have hnat : (Char.ofNat b.toNat).toNat = b.toNat := by
        rw [Char.ofNat, dif_pos (Or.inl (by omega) : b.toNat.isValidChar)]
        rfl
      unfold isHeaderSafe
      simp only [Bool.or_eq_true, Bool.and_eq_true, decide_eq_true_eq, hnat]
      omega
    · decide
  · cases h

/-! ## Names -/

/-- The characters of an RFC 9110 token. -/
def isTokenChar (c : Char) : Bool := c.isAlphanum || "!#$%&'*+-.^_`|~".toList.contains c

/-- A lower-case token of a length the `http` crate admits. -/
def isHeaderName (text : Str) : Bool :=
  !text.isEmpty && text.length ≤ 65535 && text.all fun c => isTokenChar c && c.toLower == c

structure HeaderName where
  text : Str
  valid : isHeaderName text = true
  deriving DecidableEq

/-- `HeaderName::from_bytes`: names are case-insensitive, and kept in lower case. -/
def HeaderName.fromBytes (text : Str) : Option HeaderName :=
  if h : isHeaderName (Text.toAsciiLowercase text) = true then
    some ⟨Text.toAsciiLowercase text, h⟩
  else none

/-! ## Maps -/

/-- `http::HeaderMap`: the fields of a message in order. -/
abbrev HeaderMap := List (HeaderName × HeaderValue)

namespace HeaderMap

def getAll (map : HeaderMap) (name : HeaderName) : List HeaderValue :=
  (map.filter fun field => field.1 = name).map Prod.snd

/-- `HeaderMap::get`: the first value. -/
def get (map : HeaderMap) (name : HeaderName) : Option HeaderValue := (getAll map name).head?

def containsKey (map : HeaderMap) (name : HeaderName) : Bool := !(getAll map name).isEmpty

def remove (map : HeaderMap) (name : HeaderName) : HeaderMap :=
  map.filter fun field => field.1 ≠ name

def append (map : HeaderMap) (name : HeaderName) (value : HeaderValue) : HeaderMap :=
  List.append map [(name, value)]

/-- `HeaderMap::insert`: the value replaces every other. -/
def insert (map : HeaderMap) (name : HeaderName) (value : HeaderValue) : HeaderMap :=
  append (remove map name) name value

/-- `HeaderMap::keys`: every name once. -/
def keys (map : HeaderMap) : List HeaderName := (map.map Prod.fst).dedup

/-- The names of a map in the order they came in. -/
def names (map : HeaderMap) : List HeaderName := (map.map Prod.fst).reverse.dedup.reverse

/-- `HeaderMap::iter`: name by name, each with all its values. -/
def iter (map : HeaderMap) : HeaderMap :=
  (names map).flatMap fun name => (getAll map name).map fun value => (name, value)

/-! ## What an operation leaves under each name -/

theorem containsKey_iff {map : HeaderMap} {name : HeaderName} :
    containsKey map name ↔ getAll map name ≠ [] := by
  simp [containsKey]

theorem getAll_eq_nil_of_notMem_keys {map : HeaderMap} {name : HeaderName}
    (h : name ∉ keys map) : getAll map name = [] := by
  rw [getAll, List.map_eq_nil_iff, List.filter_eq_nil_iff]
  intro field hfield hname
  refine h (List.mem_dedup.mpr (List.mem_map.mpr ⟨field, hfield, ?_⟩))
  simpa using hname

theorem getAll_remove (map : HeaderMap) (name other : HeaderName) :
    getAll (remove map name) other = if other = name then [] else getAll map other := by
  rw [getAll, remove, List.filter_filter]
  split_ifs with h
  · subst h
    simp
  · rw [getAll]
    congr 1
    refine List.filter_congr fun field _ => ?_
    by_cases hf : field.1 = other
    · have : field.1 ≠ name := fun hn => h (hf.symm.trans hn)
      simp [hf, h]
    · simp [hf]

theorem getAll_append (map : HeaderMap) (name other : HeaderName) (value : HeaderValue) :
    getAll (append map name value) other =
      getAll map other ++ if other = name then [value] else [] := by
  show ((map ++ [(name, value)]).filter fun field => field.1 = other).map Prod.snd = _
  rw [List.filter_append, List.map_append, ← getAll]
  congr 1
  by_cases h : other = name
  · simp [h]
  · simp [h, Ne.symm h]

theorem getAll_insert (map : HeaderMap) (name other : HeaderName) (value : HeaderValue) :
    getAll (insert map name value) other =
      if other = name then [value] else getAll map other := by
  rw [insert, getAll_append, getAll_remove]
  split_ifs <;> simp

theorem getAll_foldl_remove (listed : List HeaderName) (map : HeaderMap) (name : HeaderName) :
    getAll (listed.foldl remove map) name = if name ∈ listed then [] else getAll map name := by
  induction listed generalizing map with
  | nil => simp
  | cons first listed ih =>
    rw [List.foldl_cons, ih, getAll_remove]
    by_cases h : name = first
    · simp [h]
    · simp [h]

@[simp] theorem getAll_nil (name : HeaderName) : getAll [] name = [] := rfl

theorem getAll_concat (front back : HeaderMap) (name : HeaderName) :
    getAll (front ++ back) name = getAll front name ++ getAll back name := by
  rw [getAll, List.filter_append, List.map_append]
  rfl

/-- A stretch of one name. -/
theorem getAll_map_pair (values : List HeaderValue) (name other : HeaderName) :
    getAll (values.map fun value => (name, value)) other =
      if other = name then values else [] := by
  induction values with
  | nil => simp
  | cons value values ih =>
    rw [List.map_cons, ← List.singleton_append, getAll_concat, ih]
    by_cases h : other = name
    · subst h
      simp [getAll]
    · have hne : name ≠ other := Ne.symm h
      simp [getAll, h, hne]

theorem getAll_filter (keep : HeaderName → Bool) (map : HeaderMap) (name : HeaderName) :
    getAll (map.filter fun field => keep field.1) name =
      if keep name then getAll map name else [] := by
  rw [getAll, List.filter_filter]
  split_ifs with h
  · rw [getAll]
    congr 1
    refine List.filter_congr fun field _ => ?_
    by_cases hf : field.1 = name
    · rw [hf, h, Bool.and_true]
    · simp [hf]
  · rw [List.map_eq_nil_iff, List.filter_eq_nil_iff]
    intro field _ hboth
    rw [Bool.and_eq_true, decide_eq_true_eq] at hboth
    rw [hboth.1] at hboth
    exact h hboth.2

theorem getAll_flatMap {listed : List HeaderName} (hnodup : listed.Nodup)
    (values : HeaderName → List HeaderValue) (name : HeaderName) :
    getAll (listed.flatMap fun n => (values n).map fun value => (n, value)) name =
      if name ∈ listed then values name else [] := by
  induction listed with
  | nil => rfl
  | cons n listed ih =>
    rw [List.nodup_cons] at hnodup
    rw [List.flatMap_cons, getAll_concat, getAll_map_pair, ih hnodup.2]
    by_cases h : name = n
    · subst h
      simp [hnodup.1]
    · simp [h]

/-- Iterating gives every value under its name. -/
theorem getAll_iter (map : HeaderMap) (name : HeaderName) :
    getAll (iter map) name = getAll map name := by
  have hnodup : (names map).Nodup := List.nodup_reverse.mpr (List.nodup_dedup _)
  rw [iter, getAll_flatMap hnodup]
  split_ifs with h
  · rfl
  · refine (getAll_eq_nil_of_notMem_keys fun hmem => h ?_).symm
    rw [names, List.mem_reverse, List.mem_dedup, List.mem_reverse]
    exact List.mem_dedup.mp hmem

end HeaderMap

end Chromulate
