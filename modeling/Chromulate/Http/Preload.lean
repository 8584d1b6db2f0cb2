import Chromulate.Http.Hsts
import Chromulate.Lib.Bytes
import Chromulate.Lib.Search
import Mathlib.Data.List.Sort
import Mathlib.Data.Nat.Bitwise

/-!
# The preload table

The generator of the table, `encode` in `data/hsts-preload/generate.py`, and its reader,
`chromulate-http/src/hsts/preload.rs`. The table is a header, an index of words and the names one
after another; a word is where a name starts and, in its top bit, whether the entry includes its
subdomains.

The reader indexes the bytes and slices them, which panics outside them: here each such read gives
`none`. What `encode` wrote is read back (`nameAt_of_append`, `includesSubdomains_of_append`), the
names are in the order in which the search compares (`sorted_of_encode`), and so a lookup finds
exactly the entries of the list, from whatever list the table was made (`lookup_of_encode`).
-/

namespace Chromulate.Http.Preload

open Text

open Bytes (ofStr toLe ofLe slice)
open HstsStore (canonicalName_eq_some canonicalName_toAsciiLowercase parents mem_parents
  parents_toAsciiLowercase withoutRoot Above)

/-! ## The generator -/

/-- An entry of the list, with `include_subdomains` as `bool` takes it. -/
structure Entry where
  name : Option Str
  mode : Option Str
  includeSubdomains : Bool

def flagIncludeSubdomains : Nat := 2 ^ 31

def offsetMask : Nat := flagIncludeSubdomains - 1

def magic : Bytes := ofStr "CHROMHS1".toList

def isForceHttps (entry : Entry) : Bool := entry.mode == some "force-https".toList

/-- `str.isascii`. -/
def isAscii (name : Str) : Bool := name.all fun c => c.toNat ≤ 127

/-- One entry in the loop that collects the names. -/
def collect (names : List (Str × Bool)) (entry : Entry) : Option (List (Str × Bool)) :=
  if !isForceHttps entry then some names
  else do
    let name ← entry.name
    if !isAscii name then none
    else some (names ++ [(toAsciiLowercase name, entry.includeSubdomains)])

/-- The order of the sort: by the bytes of the name. -/
def NameLe (a b : Str × Bool) : Prop := (compare (ofStr a.1) (ofStr b.1)).isLE

instance : DecidableRel NameLe := fun _ _ => inferInstanceAs (Decidable (_ = _))

/-- `int.to_bytes(4, "little")`, which raises for a larger number. -/
def toBytes (n : Nat) : Option Bytes := if n < 2 ^ 32 then some (toLe 4 n) else none

/-- The word of an entry that starts at `start`. -/
def word (start : Nat) (includeSubdomains : Bool) : Nat :=
  start ||| if includeSubdomains then flagIncludeSubdomains else 0

/-- One name in the loop that writes the index and the names. -/
def write (written : Bytes × Bytes) (entry : Str × Bool) :
    Option (Bytes × Bytes) :=
  let (index, blob) := written
  let start := blob.length
  if start > offsetMask then none
  else do
    let bytes ← toBytes (word start entry.2)
    some (index ++ bytes, blob ++ ofStr entry.1)

/-- `encode`: the table and the names in it, `none` where it raises. -/
def encode (entries : List Entry) : Option (Bytes × List (Str × Bool)) := do
  let names ← entries.foldlM collect []
  let names := names.insertionSort NameLe
  if (names.zip names.tail).any fun pair => pair.1.1 == pair.2.1 then none
  else do
    let (index, blob) ← names.foldlM write ([], [])
    let sentinel ← toBytes blob.length
    let count ← toBytes names.length
    let len ← toBytes blob.length
    some (magic ++ count ++ len ++ (index ++ sentinel) ++ blob, names)

/-! ## The reader -/

section Reader

variable (blob : Bytes)

def headerLen : Nat := 16

def wordAt (offset : Nat) : Option Nat := do
  let a ← blob[offset]?
  let b ← blob[offset + 1]?
  let c ← blob[offset + 2]?
  let d ← blob[offset + 3]?
  some (ofLe [a, b, c, d])

def entryCount : Option Nat := wordAt blob 8

def namesLen : Option Nat := wordAt blob 12

def namesStart : Option Nat := do
  let count ← entryCount blob
  some (headerLen + 4 * (count + 1))

/-- The assertions under which a table is compiled in. -/
def asserts : Option Bool := do
  let count ← entryCount blob
  let len ← namesLen blob
  let start ← namesStart blob
  let sentinel ← wordAt blob (headerLen + 4 * count)
  some (headerLen < blob.length && blob.take 8 == magic && 0 < count &&
    start + len == blob.length && sentinel == len)

def nameAt (index : Nat) : Option Bytes := do
  let start ← wordAt blob (headerLen + 4 * index)
  let stop ← wordAt blob (headerLen + 4 * (index + 1))
  let names ← namesStart blob
  slice blob (names + (start &&& offsetMask)) (names + (stop &&& offsetMask))

def includesSubdomains (index : Nat) : Option Bool := do
  let word ← wordAt blob (headerLen + 4 * index)
  some (word &&& flagIncludeSubdomains != 0)

/-- `compare`: the case of the query is folded as it is read. -/
def compare : Bytes → Bytes → Ordering
  | a :: table, b :: query =>
    match Ord.compare a (Bytes.toAsciiLowercase b) with
    | .eq => compare table query
    | ordering => ordering
  | table, query => Ord.compare table.length query.length

/-- How the entry at a position compares with a name. -/
def probe (name : Str) (middle : Nat) : Option Ordering := do
  let table ← nameAt blob middle
  some (compare table (ofStr name))

/-- `lookup`. A round of the search leaves fewer entries, so there are at most as many rounds as
entries. -/
def lookup (name : Str) : Option (Option Bool) := do
  let count ← entryCount blob
  match ← Search.bisect (probe blob name) count 0 count with
  | some middle => do
      let flag ← includesSubdomains blob middle
      some (some flag)
  | none => some none

/-- The loop of `covers` over the names above a name. -/
def coversAbove : List Str → Option Bool
  | [] => some false
  | parent :: rest => do
      if (← lookup blob parent) = some true then some true else coversAbove rest

def covers (host : Str) : Option Bool :=
  match HstsStore.canonicalName host with
  | none => some false
  | some host => do
      if (← lookup blob host).isSome then some true
      else coversAbove blob (parents host)

end Reader

/-! ## What the generator writes -/

/-- The names one after another. -/
def joined (names : List (Str × Bool)) : Bytes := names.flatMap fun entry => ofStr entry.1

/-- The words of the entries, the first of which starts at `start`. -/
def words : Nat → List (Str × Bool) → Bytes
  | _, [] => []
  | start, entry :: rest =>
    toLe 4 (word start entry.2) ++ words (start + (ofStr entry.1).length) rest

theorem joined_cons (entry : Str × Bool) (rest : List (Str × Bool)) :
    joined (entry :: rest) = ofStr entry.1 ++ joined rest := rfl

theorem joined_append (front rest : List (Str × Bool)) :
    joined (front ++ rest) = joined front ++ joined rest := by
  simp [joined]

theorem length_words (start : Nat) (names : List (Str × Bool)) :
    (words start names).length = 4 * names.length := by
  induction names generalizing start with
  | nil => rfl
  | cons entry rest ih =>
    simp only [words, List.length_append, Bytes.length_toLe, ih, List.length_cons]
    omega

theorem words_append (start : Nat) (front rest : List (Str × Bool)) :
    words start (front ++ rest) =
      words start front ++ words (start + (joined front).length) rest := by
  induction front generalizing start with
  | nil => simp [words, joined]
  | cons entry front ih =>
    simp only [List.cons_append, words, ih, joined_cons, List.length_append,
      List.append_assoc, Nat.add_assoc]

theorem toBytes_eq_some {n : Nat} {bytes : Bytes} :
    toBytes n = some bytes ↔ n < 2 ^ 32 ∧ bytes = toLe 4 n := by
  unfold toBytes
  split_ifs with h
  · rw [Option.some.injEq, and_iff_right h, eq_comm]
  · simp only [h, false_and]

/-- What the loop over the names adds to the index and to the names. -/
theorem foldlM_write {names : List (Str × Bool)} {index blob : Bytes}
    {written : Bytes × Bytes} (h : names.foldlM write (index, blob) = some written) :
    written = (index ++ words blob.length names, blob ++ joined names) := by
  induction names generalizing index blob with
  | nil =>
    simp only [List.foldlM_nil, Option.pure_def, Option.some.injEq] at h
    simp [← h, words, joined]
  | cons entry rest ih =>
    rw [List.foldlM_cons, Option.bind_eq_bind, Option.bind_eq_some_iff] at h
    obtain ⟨⟨index', blob'⟩, hwrite, hrest⟩ := h
    simp only [write] at hwrite
    split_ifs at hwrite with hstart
    simp only [Option.bind_eq_bind, Option.bind_eq_some_iff, Option.some.injEq,
      Prod.mk.injEq] at hwrite
    obtain ⟨bytes, hbytes, rfl, rfl⟩ := hwrite
    rw [ih hrest, (toBytes_eq_some.mp hbytes).2]
    simp [words, joined_cons]

/-- The order of the names of a table. -/
def NameLt (a b : Str × Bool) : Prop := Ord.compare (ofStr a.1) (ofStr b.1) = .lt

/-- What the generator leaves: the names each once, in the order of their bytes, and a table that is
laid out for them. -/
structure Laid (blob : Bytes) (names : List (Str × Bool)) : Prop where
  bytes : blob = magic ++ toLe 4 names.length ++ toLe 4 (joined names).length ++
    (words 0 names ++ toLe 4 (joined names).length) ++ joined names
  count : names.length < 2 ^ 32
  sorted : names.Pairwise NameLt

theorem nameLe_trans {a b c : Str × Bool} (hab : NameLe a b) (hbc : NameLe b c) : NameLe a c :=
  Std.TransCmp.isLE_trans hab hbc

theorem nameLe_total (a b : Str × Bool) : NameLe a b ∨ NameLe b a := by
  have hswap : Ord.compare (ofStr b.1) (ofStr a.1) = (Ord.compare (ofStr a.1) (ofStr b.1)).swap :=
    Std.OrientedCmp.eq_swap
  unfold NameLe
  rw [hswap]
  cases Ord.compare (ofStr a.1) (ofStr b.1) <;> simp

instance : IsTrans (Str × Bool) NameLe := ⟨fun _ _ _ => nameLe_trans⟩

instance : Std.Total NameLe := ⟨nameLe_total⟩

instance : Trans NameLt NameLt NameLt := ⟨fun hab hbc => Std.TransCmp.lt_trans hab hbc⟩

/-- A sorted list without equal neighbours is strictly sorted. -/
theorem lt_of_sorted {names : List (Str × Bool)} (hsorted : names.Pairwise NameLe)
    (hdistinct : (names.zip names.tail).any (fun pair => pair.1.1 == pair.2.1) = false) :
    names.Pairwise NameLt := by
  rw [← List.isChain_iff_pairwise]
  induction names with
  | nil => exact List.IsChain.nil
  | cons a rest ih =>
    cases rest with
    | nil => exact List.IsChain.singleton a
    | cons b rest =>
      simp only [List.tail_cons, List.zip_cons_cons, List.any_cons, Bool.or_eq_false_iff,
        beq_eq_false_iff_ne] at hdistinct
      have hle : NameLe a b := (List.pairwise_cons.mp hsorted).1 b List.mem_cons_self
      have hne : Ord.compare (ofStr a.1) (ofStr b.1) ≠ .eq := by
        rw [Ne, Std.LawfulEqCmp.compare_eq_iff_eq]
        exact fun heq => hdistinct.1 (Bytes.ofStr_injective heq)
      refine List.IsChain.cons_cons ?_ (ih hsorted.tail hdistinct.2)
      unfold NameLe at hle
      cases hcompare : Ord.compare (ofStr a.1) (ofStr b.1) with
      | lt => exact hcompare
      | eq => exact absurd hcompare hne
      | gt =>
        rw [hcompare] at hle
        cases hle

variable {entries : List Entry} {start : Nat} {collected : List (Str × Bool)}

/-- **What the generator accepts it lays out**, from the names that it collected. -/
theorem laid_of_encode {blob : Bytes} {names : List (Str × Bool)}
    (h : encode entries = some (blob, names)) :
    Laid blob names ∧ ∃ collected, entries.foldlM collect [] = some collected ∧
      names.Perm collected := by
  simp only [encode, Option.bind_eq_bind, Option.bind_eq_some_iff] at h
  obtain ⟨collected, hcollected, h⟩ := h
  split_ifs at h with hdistinct
  simp only [Option.bind_eq_some_iff, Option.some.injEq, Prod.mk.injEq] at h
  obtain ⟨⟨index, joined⟩, hwrite, sentinel, hsentinel, count, hcount, len, hlen, rfl, rfl⟩ := h
  have hwritten := foldlM_write hwrite
  simp only [List.nil_append, List.length_nil, Prod.mk.injEq] at hwritten
  obtain ⟨rfl, rfl⟩ := hwritten
  rw [toBytes_eq_some] at hsentinel hcount hlen
  refine ⟨⟨?_, hcount.1, ?_⟩, collected, hcollected, List.perm_insertionSort _ _⟩
  · rw [hsentinel.2, hcount.2, hlen.2]
  · exact lt_of_sorted (List.pairwise_insertionSort _ _) (Bool.eq_false_iff.mpr hdistinct)

/-! ## What the reader reads -/

theorem wordAt_append {n : Nat} (hn : n < 2 ^ 32) (front rest : Bytes) :
    wordAt (front ++ (toLe 4 n ++ rest)) front.length = some n := by
  have hread : ofLe (toLe 4 n) = n := Bytes.ofLe_toLe (by simpa using hn)
  obtain ⟨a, b, c, d, hfour⟩ : ∃ a b c d, toLe 4 n = [a, b, c, d] :=
    List.length_eq_four.mp (Bytes.length_toLe 4 n)
  rw [hfour] at hread ⊢
  simp [wordAt, hread]

theorem word_lt (h : start ≤ offsetMask) (flag : Bool) : word start flag < 2 ^ 32 := by
  have hstart : start < 2 ^ 32 := Nat.lt_of_le_of_lt h (by decide)
  cases flag
  · simpa [word] using hstart
  · exact Nat.or_lt_two_pow hstart (by decide)

theorem word_and_offsetMask (h : start ≤ offsetMask) (flag : Bool) :
    word start flag &&& offsetMask = start := by
  have hlt : start < 2 ^ 31 := Nat.lt_of_le_of_lt h (by decide)
  show word start flag &&& 2 ^ 31 - 1 = start
  rw [Nat.and_two_pow_sub_one_eq_mod]
  cases flag
  · simpa [word] using Nat.mod_eq_of_lt hlt
  · have hor : word start true = 2 ^ 31 + start := by
      have := Nat.two_pow_add_eq_or_of_lt hlt 1
      rw [word, if_pos rfl, flagIncludeSubdomains, Nat.or_comm]
      rw [Nat.mul_one] at this
      exact this.symm
    rw [hor, Nat.add_mod_left, Nat.mod_eq_of_lt hlt]

theorem word_and_flag (h : start ≤ offsetMask) (flag : Bool) :
    (word start flag &&& flagIncludeSubdomains != 0) = flag := by
  have hlt : start < 2 ^ 31 := Nat.lt_of_le_of_lt h (by decide)
  rw [flagIncludeSubdomains, Nat.and_two_pow, word, Nat.testBit_or, Nat.testBit_lt_two_pow hlt]
  cases flag
  · rfl
  · rw [if_pos rfl, flagIncludeSubdomains, Nat.testBit_two_pow_self]
    rfl

section Laid

variable {blob : Bytes} {names : List (Str × Bool)}

variable {front rest : List (Str × Bool)} {entry : Str × Bool}

/-- A table as what stands before some position of its index and what stands behind it. -/
theorem Laid.split (h : Laid blob names) (hnames : names = front ++ rest) :
    ∃ header : Bytes, header.length = headerLen + 4 * front.length ∧
      blob = header ++ (words (joined front).length rest ++
        (toLe 4 (joined names).length ++ joined names)) := by
  refine ⟨magic ++ toLe 4 names.length ++ toLe 4 (joined names).length ++ words 0 front, ?_, ?_⟩
  · have hmagic : magic.length = 8 := by decide
    simp only [List.length_append, Bytes.length_toLe, length_words, hmagic, headerLen]
  · have hwords := words_append 0 front rest
    rw [Nat.zero_add, ← hnames] at hwords
    rw [h.bytes, hwords]
    simp only [List.append_assoc]

theorem Laid.entryCount (h : Laid blob names) : entryCount blob = some names.length := by
  have hmagic : magic.length = 8 := by decide
  have hblob : blob = magic ++ (toLe 4 names.length ++ (toLe 4 (joined names).length ++
      (words 0 names ++ (toLe 4 (joined names).length ++ joined names)))) := by
    rw [h.bytes]
    simp only [List.append_assoc]
  rw [Preload.entryCount, ← hmagic, hblob]
  exact wordAt_append h.count _ _

theorem Laid.namesStart (h : Laid blob names) :
    namesStart blob = some (headerLen + 4 * (names.length + 1)) := by
  rw [Preload.namesStart, h.entryCount]
  rfl

theorem Laid.wordAt (h : Laid blob names) (hlen : (joined names).length ≤ offsetMask)
    (hnames : names = front ++ entry :: rest) :
    wordAt blob (headerLen + 4 * front.length) = some (word (joined front).length entry.2) := by
  obtain ⟨header, hheader, hblob⟩ := h.split hnames
  have hle : (joined front).length ≤ offsetMask := by
    rw [hnames, joined_append, List.length_append] at hlen
    omega
  rw [hblob, ← hheader, words, List.append_assoc]
  exact wordAt_append (word_lt hle entry.2) _ _

/-- The offset at a position of the index, the last of which is the sentinel. -/
theorem Laid.offsetAt (h : Laid blob names) (hlen : (joined names).length ≤ offsetMask)
    (hnames : names = front ++ rest) :
    ∃ word, Preload.wordAt blob (headerLen + 4 * front.length) = some word ∧
      word &&& offsetMask = (joined front).length := by
  have hle : (joined front).length ≤ offsetMask := by
    rw [hnames, joined_append, List.length_append] at hlen
    omega
  cases rest with
  | cons entry rest => exact ⟨_, h.wordAt hlen hnames, word_and_offsetMask hle entry.2⟩
  | nil =>
    obtain ⟨header, hheader, hblob⟩ := h.split hnames
    rw [List.append_nil] at hnames
    subst hnames
    refine ⟨(joined names).length, ?_, by simpa [word] using word_and_offsetMask hle false⟩
    rw [hblob, ← hheader, words, List.nil_append]
    exact wordAt_append (Nat.lt_of_le_of_lt hlen (by decide)) _ _

theorem Laid.names_split (h : Laid blob names) :
    ∃ header : Bytes, header.length = headerLen + 4 * (names.length + 1) ∧
      blob = header ++ joined names := by
  obtain ⟨header, hheader, hblob⟩ := h.split (List.append_nil names).symm
  refine ⟨header ++ toLe 4 (joined names).length, ?_, ?_⟩
  · simp only [List.length_append, Bytes.length_toLe, hheader]
    omega
  · rw [hblob, words, List.nil_append, List.append_assoc]

/-- **The name of an entry is read back.** -/
theorem Laid.nameAt (h : Laid blob names) (hlen : (joined names).length ≤ offsetMask)
    (hnames : names = front ++ entry :: rest) :
    nameAt blob front.length = some (ofStr entry.1) := by
  have hnext : names = (front ++ [entry]) ++ rest := by simp [hnames]
  obtain ⟨start, hstart, hoffset⟩ := h.offsetAt hlen hnames
  obtain ⟨stop, hstop, hend⟩ := h.offsetAt hlen hnext
  rw [List.length_append, List.length_singleton] at hstop
  have hjoined : joined names = joined front ++ (ofStr entry.1 ++ joined rest) := by
    rw [hnames, joined_append, joined_cons]
  have hstopped : (joined (front ++ [entry])).length =
      (joined front).length + (ofStr entry.1).length := by
    simp [joined]
  obtain ⟨header, hheader, hblob⟩ := h.names_split
  rw [hjoined, ← List.append_assoc] at hblob
  have hslice := Bytes.slice_append (header ++ joined front) (ofStr entry.1) (joined rest)
  rw [← hblob, List.length_append, hheader] at hslice
  simp only [Preload.nameAt, hstart, hstop, h.namesStart, hoffset, hend, hstopped,
    Option.bind_eq_bind, Option.bind_some, ← Nat.add_assoc]
  exact hslice

/-- **The flag of an entry is read back.** -/
theorem Laid.includesSubdomains (h : Laid blob names) (hlen : (joined names).length ≤ offsetMask)
    (hnames : names = front ++ entry :: rest) :
    includesSubdomains blob front.length = some entry.2 := by
  have hle : (joined front).length ≤ offsetMask := by
    rw [hnames, joined_append, List.length_append] at hlen
    omega
  rw [Preload.includesSubdomains, h.wordAt hlen hnames]
  exact congrArg some (word_and_flag hle entry.2)

/-! ## Looking up -/

/-- The comparison of the search is the order of the sort, the case of the query folded. -/
theorem compare_eq (table query : Bytes) :
    compare table query = Ord.compare table (query.map Bytes.toAsciiLowercase) := by
  induction table generalizing query with
  | nil => cases query <;> rfl
  | cons a table ih =>
    cases query with
    | nil => rfl
    | cons b query =>
      rw [compare, List.map_cons, List.compare_cons_cons, ih]
      cases Ord.compare a (Bytes.toAsciiLowercase b) <;> rfl

/-- How the entry at a position of the list compares with a name. -/
def orderAt (names : List (Str × Bool)) (host : Str) (i : Nat) : Ordering :=
  (names[i]?.map fun entry =>
    Ord.compare (ofStr entry.1) (ofStr (toAsciiLowercase host))).getD .gt

theorem orderAt_of_lt {host : Str} {i : Nat} (hi : i < names.length) :
    orderAt names host i =
      Ord.compare (ofStr names[i].1) (ofStr (toAsciiLowercase host)) := by
  rw [orderAt, List.getElem?_eq_getElem hi, Option.map_some, Option.getD_some]

theorem orderAt_eq_eq {host : Str} {i : Nat} (hi : i < names.length) :
    orderAt names host i = .eq ↔ names[i].1 = toAsciiLowercase host := by
  rw [orderAt_of_lt hi, Std.LawfulEqCmp.compare_eq_iff_eq, Bytes.ofStr_injective.eq_iff]

/-- The probe of the search goes up through the names in their order. -/
theorem Laid.ordered (h : Laid blob names) (hlen : (joined names).length ≤ offsetMask)
    (host : Str) :
    Search.Ordered (probe blob host) (orderAt names host) names.length where
  answers i hi := by
    have hnames : names = names.take i ++ names[i] :: names.drop (i + 1) := by simp
    have hname := h.nameAt hlen hnames
    rw [List.length_take_of_le (by omega)] at hname
    rw [probe, hname, orderAt_of_lt hi, Bytes.ofStr_toAsciiLowercase, ← compare_eq]
    rfl
  lower i j hij hj hlt := by
    have hi : i < names.length := Nat.lt_trans hij hj
    have hsorted : NameLt names[i] names[j] :=
      List.pairwise_iff_getElem.mp h.sorted i j hi hj hij
    rw [orderAt_of_lt hj] at hlt
    rw [orderAt_of_lt hi]
    exact Std.TransCmp.lt_trans hsorted hlt
  upper i j hij hj hgt := by
    have hi : i < names.length := Nat.lt_trans hij hj
    have hsorted : NameLt names[i] names[j] :=
      List.pairwise_iff_getElem.mp h.sorted i j hi hj hij
    rw [orderAt_of_lt hi] at hgt
    rw [orderAt_of_lt hj]
    exact Std.TransCmp.gt_trans (Std.OrientedCmp.gt_of_lt hsorted) hgt

theorem Laid.eq_of_mem (h : Laid blob names) {name : Str} {a b : Bool} (ha : (name, a) ∈ names)
    (hb : (name, b) ∈ names) : a = b := by
  have hirrefl : ∀ x y : Bool, ¬ NameLt (name, x) (name, y) := by
    intro x y hlt
    have hself : Ord.compare (ofStr name) (ofStr name) = .eq := Std.ReflCmp.compare_self
    rw [NameLt, hself] at hlt
    cases hlt
  obtain ⟨i, hi, hgetI⟩ := List.mem_iff_getElem.mp ha
  obtain ⟨j, hj, hgetJ⟩ := List.mem_iff_getElem.mp hb
  have hsorted := List.pairwise_iff_getElem.mp h.sorted
  rcases Nat.lt_trichotomy i j with hlt | heq | hgt
  · have hless := hsorted i j hi hj hlt
    rw [hgetI, hgetJ] at hless
    exact absurd hless (hirrefl a b)
  · subst heq
    rw [hgetI] at hgetJ
    exact congrArg Prod.snd hgetJ
  · have hless := hsorted j i hj hi hgt
    rw [hgetI, hgetJ] at hless
    exact absurd hless (hirrefl b a)

/-- **A lookup finds what is in the table**, and is never out of it. -/
theorem Laid.lookup (h : Laid blob names) (hlen : (joined names).length ≤ offsetMask)
    (host : Str) :
    ∃ found, lookup blob host = some found ∧
      ∀ flag, found = some flag ↔ (toAsciiLowercase host, flag) ∈ names := by
  have hbracket : Search.Bracket (orderAt names host) names.length 0 names.length :=
    ⟨fun i hi => absurd hi (Nat.not_lt_zero i), fun i hle hi => absurd hi (by omega)⟩
  obtain ⟨found, hfound, hsome, hnone⟩ := Search.bisect_spec (h.ordered hlen host) names.length
    (Nat.le_refl _) (Nat.le_refl _) hbracket
  cases found with
  | none =>
    refine ⟨none, by simp [Preload.lookup, h.entryCount, hfound], fun flag => ?_⟩
    constructor
    · intro hcontra
      cases hcontra
    · intro hmem
      obtain ⟨i, hi, hget⟩ := List.mem_iff_getElem.mp hmem
      refine absurd ((orderAt_eq_eq hi).mpr ?_) (hnone rfl i hi)
      rw [hget]
  | some i =>
    obtain ⟨hi, horder⟩ := hsome i rfl
    rw [orderAt_eq_eq hi] at horder
    have hnames : names = names.take i ++ names[i] :: names.drop (i + 1) := by simp
    have hflag := h.includesSubdomains hlen hnames
    rw [List.length_take_of_le (by omega)] at hflag
    have hmem : (toAsciiLowercase host, names[i].2) ∈ names := by
      rw [← horder]
      exact List.getElem_mem hi
    refine ⟨some names[i].2, by simp [Preload.lookup, h.entryCount, hfound, hflag],
      fun flag => ?_⟩
    rw [Option.some.injEq]
    exact ⟨fun heq => heq ▸ hmem, h.eq_of_mem hmem⟩

end Laid

/-! ## The list and its table -/

/-- A `force-https` entry of the list with a name, in whatever case, and a flag. -/
def Listed (entries : List Entry) (host : Str) (flag : Bool) : Prop :=
  ∃ entry ∈ entries, entry.mode = some "force-https".toList ∧
    (∃ name, entry.name = some name ∧
      toAsciiLowercase name = toAsciiLowercase host) ∧
    entry.includeSubdomains = flag

/-- The bytes of all the names of the `force-https` entries. -/
def totalLen (entries : List Entry) : Nat :=
  ((entries.filter isForceHttps).map fun entry => (entry.name.map byteLen).getD 0).sum

theorem collect_spec {names : List (Str × Bool)} {entry : Entry}
    (h : collect names entry = some collected) :
    (¬ isForceHttps entry ∧ collected = names) ∨
      ∃ name, isForceHttps entry ∧ entry.name = some name ∧
        collected = names ++ [(toAsciiLowercase name, entry.includeSubdomains)] := by
  unfold collect at h
  cases hforce : isForceHttps entry with
  | false =>
    simp only [hforce, Bool.not_false, if_true, Option.some.injEq] at h
    exact Or.inl ⟨Bool.false_ne_true, h.symm⟩
  | true =>
    simp only [hforce, Bool.not_true, Bool.false_eq_true, if_false, Option.bind_eq_bind,
      Option.bind_eq_some_iff] at h
    obtain ⟨name, hname, h⟩ := h
    split_ifs at h
    exact Or.inr ⟨name, rfl, hname, (Option.some.inj h).symm⟩

theorem mem_collected {names : List (Str × Bool)}
    (h : entries.foldlM collect names = some collected) (host : Str) (flag : Bool) :
    (toAsciiLowercase host, flag) ∈ collected ↔
      (toAsciiLowercase host, flag) ∈ names ∨ Listed entries host flag := by
  induction entries generalizing names with
  | nil =>
    simp only [List.foldlM_nil, Option.pure_def, Option.some.injEq] at h
    simp [h, Listed]
  | cons entry rest ih =>
    rw [List.foldlM_cons, Option.bind_eq_bind, Option.bind_eq_some_iff] at h
    obtain ⟨names', hcollect, hrest⟩ := h
    rw [ih hrest]
    have hcons : Listed (entry :: rest) host flag ↔
        Listed [entry] host flag ∨ Listed rest host flag := by
      simp [Listed]
    rw [hcons, ← or_assoc]
    refine or_congr_left ?_
    rcases collect_spec hcollect with ⟨hforce, rfl⟩ | ⟨name, hforce, hname, rfl⟩
    · have hnot : ¬ Listed [entry] host flag := by
        rintro ⟨_, hmem, hmode, _⟩
        rw [List.mem_singleton.mp hmem] at hmode
        exact hforce (by rw [isForceHttps, hmode, beq_self_eq_true])
      rw [or_iff_left hnot]
    · have hmode : entry.mode = some "force-https".toList := eq_of_beq hforce
      simp [Listed, hmode, hname, eq_comm]

theorem length_collected {names : List (Str × Bool)}
    (h : entries.foldlM collect names = some collected) :
    (joined collected).length = (joined names).length + totalLen entries := by
  induction entries generalizing names with
  | nil =>
    simp only [List.foldlM_nil, Option.pure_def, Option.some.injEq] at h
    simp [h, totalLen]
  | cons entry rest ih =>
    rw [List.foldlM_cons, Option.bind_eq_bind, Option.bind_eq_some_iff] at h
    obtain ⟨names', hcollect, hrest⟩ := h
    rw [ih hrest]
    rcases collect_spec hcollect with ⟨hforce, rfl⟩ | ⟨name, hforce, hname, rfl⟩
    · simp [totalLen, hforce]
    · simp [totalLen, hforce, hname, joined, Bytes.length_ofStr,
        byteLen_toAsciiLowercase, Nat.add_assoc]

theorem length_joined_le {blob : Bytes} {names : List (Str × Bool)}
    (hencode : encode entries = some (blob, names)) (hlen : totalLen entries ≤ offsetMask) :
    (joined names).length ≤ offsetMask := by
  obtain ⟨-, collected, hcollected, hperm⟩ := laid_of_encode hencode
  have hnil : (joined []).length = 0 := rfl
  have hperm' : (joined names).length = (joined collected).length :=
    (hperm.flatMap_right _).length_eq
  rw [hperm', length_collected hcollected, hnil]
  omega

/-- **A lookup in the table finds the entries of the list.** -/
theorem lookup_of_encode {blob : Bytes} {names : List (Str × Bool)}
    (hencode : encode entries = some (blob, names)) (hlen : totalLen entries ≤ offsetMask)
    (host : Str) :
    ∃ found, lookup blob host = some found ∧
      ∀ flag, found = some flag ↔ Listed entries host flag := by
  obtain ⟨hlaid, collected, hcollected, hperm⟩ := laid_of_encode hencode
  obtain ⟨found, hfound, hiff⟩ := hlaid.lookup (length_joined_le hencode hlen) host
  refine ⟨found, hfound, fun flag => ?_⟩
  rw [hiff flag, hperm.mem_iff, mem_collected hcollected host flag]
  simp

/-! ## Covering -/

/-- That a list which holds some names, each with a flag, demands HTTPS for a host: no label of it
is empty, and the list holds it, or a name above it with its subdomains. -/
def Demands (holds : Str → Bool → Prop) (host : Str) : Prop :=
  (∀ label ∈ (withoutRoot host).splitOn '.', label ≠ []) ∧
    ((∃ flag, holds (withoutRoot host) flag) ∨
      ∃ parent, Above parent (withoutRoot host) ∧ holds parent true)

section Covers

variable {blob : Bytes} {holds : Str → Bool → Prop}

theorem coversAbove_spec
    (hlookup : ∀ host, ∃ found, lookup blob host = some found ∧
      ∀ flag, found = some flag ↔ holds host flag) (above : List Str) :
    ∃ covered, coversAbove blob above = some covered ∧
      (covered = true ↔ ∃ parent ∈ above, holds parent true) := by
  induction above with
  | nil => exact ⟨false, rfl, by simp⟩
  | cons parent rest ih =>
    obtain ⟨found, hfound, hiff⟩ := hlookup parent
    obtain ⟨covered, hcovered, hrest⟩ := ih
    by_cases hholds : holds parent true
    · refine ⟨true, ?_, by simp [hholds]⟩
      simp [coversAbove, hfound, (hiff true).mpr hholds]
    · refine ⟨covered, ?_, by simp [hholds, hrest]⟩
      have hnot : found ≠ some true := fun heq => hholds ((hiff true).mp heq)
      simp [coversAbove, hfound, hnot, hcovered]

theorem covers_spec
    (hlookup : ∀ host, ∃ found, lookup blob host = some found ∧
      ∀ flag, found = some flag ↔ holds host flag) (host : Str) :
    ∃ covered, covers blob host = some covered ∧ (covered = true ↔ Demands holds host) := by
  cases hname : HstsStore.canonicalName host with
  | none =>
    refine ⟨false, by rw [covers, hname], ?_⟩
    simp only [Bool.false_eq_true, false_iff]
    rintro ⟨hlabels, _⟩
    rw [canonicalName_eq_some.mpr ⟨rfl, hlabels⟩] at hname
    cases hname
  | some name =>
    obtain ⟨rfl, hlabels⟩ := canonicalName_eq_some.mp hname
    obtain ⟨found, hfound, hiff⟩ := hlookup (withoutRoot host)
    cases found with
    | some flag =>
      refine ⟨true, by simp [covers, hname, hfound], ?_⟩
      simp only [true_iff]
      exact ⟨hlabels, Or.inl ⟨flag, (hiff flag).mp rfl⟩⟩
    | none =>
      obtain ⟨covered, hcovered, habove⟩ :=
        coversAbove_spec hlookup (parents (withoutRoot host))
      refine ⟨covered, by simp [covers, hname, hfound, hcovered], ?_⟩
      rw [habove]
      have hself : ¬ ∃ flag, holds (withoutRoot host) flag := by
        rintro ⟨flag, hholds⟩
        cases (hiff flag).mpr hholds
      simp only [Demands, hself, false_or, mem_parents]
      exact (and_iff_right hlabels).symm

end Covers

/-! ## The case and the root of a host -/

theorem lookup_toAsciiLowercase (blob : Bytes) (host : Str) :
    lookup blob (toAsciiLowercase host) = lookup blob host := by
  have hprobe : probe blob (toAsciiLowercase host) = probe blob host := by
    funext middle
    simp only [probe, compare_eq, ← Bytes.ofStr_toAsciiLowercase, toAsciiLowercase_idem]
  rw [lookup, hprobe, lookup]

theorem coversAbove_toAsciiLowercase (blob : Bytes) (above : List Str) :
    coversAbove blob (above.map toAsciiLowercase) = coversAbove blob above := by
  induction above with
  | nil => rfl
  | cons parent rest ih =>
    rw [List.map_cons, coversAbove, coversAbove, lookup_toAsciiLowercase, ih]

/-- **A table says the same of a host and of its canonical name in lower case.** -/
theorem covers_canonical (blob : Bytes) {host name : Str}
    (h : HstsStore.canonicalName host = some name) :
    covers blob (toAsciiLowercase name) = covers blob host := by
  rw [covers, canonicalName_toAsciiLowercase h, covers, h]
  simp only [lookup_toAsciiLowercase, parents_toAsciiLowercase, coversAbove_toAsciiLowercase]

/-- A table that was compiled in. -/
structure Compiled where
  blob : Bytes
  names : List (Str × Bool)
  laid : Laid blob names
  fits : (joined names).length ≤ offsetMask

namespace Compiled

/-- The table of a list that the generator accepts. -/
def ofEncode {entries : List Entry} {blob : Bytes} {names : List (Str × Bool)}
    (hencode : encode entries = some (blob, names)) (hlen : totalLen entries ≤ offsetMask) :
    Compiled :=
  ⟨blob, names, (laid_of_encode hencode).1, length_joined_le hencode hlen⟩

variable (table : Compiled)

/-- `covers`, which is answered for every host. -/
def covers (host : Str) : Bool := (Preload.covers table.blob host).getD false

/-- A table that the generator wrote covers what its list demands. -/
theorem covers_ofEncode {entries : List Entry} {blob : Bytes} {names : List (Str × Bool)}
    (hencode : encode entries = some (blob, names)) (hlen : totalLen entries ≤ offsetMask)
    (host : Str) : (ofEncode hencode hlen).covers host = true ↔ Demands (Listed entries) host := by
  obtain ⟨covered, hcovered, hiff⟩ :=
    covers_spec (fun host => lookup_of_encode hencode hlen host) host
  rw [← hiff, covers, ofEncode, hcovered]
  rfl

/-- **The reader's assertions hold of every table that has an entry**, and of no other. -/
theorem asserts_eq : asserts table.blob = some (!table.names.isEmpty) := by
  obtain ⟨blob, names, h, hlen⟩ := table
  have hlt : (joined names).length < 2 ^ 32 := Nat.lt_of_le_of_lt hlen (by decide)
  have hsentinel : Preload.wordAt blob (headerLen + 4 * names.length) =
      some (joined names).length := by
    obtain ⟨header, hheader, hblob⟩ := h.split (List.append_nil names).symm
    rw [hblob, ← hheader, words, List.nil_append]
    exact wordAt_append hlt _ _
  have hnamesLen : namesLen blob = some (joined names).length := by
    have hbefore : (magic ++ toLe 4 names.length).length = 12 := by
      rw [List.length_append, Bytes.length_toLe]
      decide
    have hblob : blob = (magic ++ toLe 4 names.length) ++ (toLe 4 (joined names).length ++
        (words 0 names ++ (toLe 4 (joined names).length ++ joined names))) := by
      rw [h.bytes]
      simp only [List.append_assoc]
    rw [namesLen, ← hbefore, hblob]
    exact wordAt_append hlt _ _
  obtain ⟨header, hheader, hblob⟩ := h.names_split
  have htotal : blob.length = headerLen + 4 * (names.length + 1) + (joined names).length := by
    rw [hblob, List.length_append, hheader]
  have hmagic : blob.take 8 = magic := by
    rw [h.bytes, List.append_assoc, List.append_assoc, List.append_assoc]
    exact List.take_left' (by decide)
  have hlonger : headerLen < headerLen + 4 * (names.length + 1) + (joined names).length := by omega
  simp only [Preload.asserts, h.entryCount, hnamesLen, h.namesStart, hsentinel, hmagic, htotal,
    Option.bind_eq_bind, Option.bind_some, beq_self_eq_true, Bool.and_true, hlonger, decide_true]
  cases names <;> simp

theorem covers_toAsciiLowercase {host name : Str} (h : HstsStore.canonicalName host = some name) :
    table.covers (toAsciiLowercase name) = table.covers host := by
  rw [covers, covers_canonical table.blob h, covers]

end Compiled

/-- **The reader reads the list that the generator wrote**: every lookup and every question whether
a host is covered is answered, without a read outside the table, and answered as the list has it. -/
theorem reads_encode (entries : List Entry) (blob : Bytes) (names : List (Str × Bool))
    (hencode : encode entries = some (blob, names)) (hlen : totalLen entries ≤ offsetMask)
    (host : Str) :
    (∃ found, lookup blob host = some found ∧
      ∀ flag, found = some flag ↔ Listed entries host flag) ∧
    (∃ covered, covers blob host = some covered ∧
      (covered = true ↔ Demands (Listed entries) host)) :=
  ⟨lookup_of_encode hencode hlen host,
    covers_spec (fun host => lookup_of_encode hencode hlen host) host⟩

/-- A list of a site, a top-level domain and an entry that is no `force-https` one. -/
def sample : List Entry :=
  [⟨some "gmail.com".toList, some "force-https".toList, false⟩,
    ⟨some "APP".toList, some "force-https".toList, true⟩,
    ⟨some "example.com".toList, none, true⟩]

theorem exists_encode_sample : ∃ blob names, encode sample = some (blob, names) ∧ names ≠ [] := by
  have haccepted : (encode sample).isSome ∧ ∀ table ∈ encode sample, table.2 ≠ [] := by decide
  obtain ⟨⟨blob, names⟩, hencode⟩ := Option.isSome_iff_exists.mp haccepted.1
  exact ⟨blob, names, hencode, haccepted.2 _ hencode⟩

theorem totalLen_sample : totalLen sample ≤ offsetMask := by decide

/-- The assertions hold of the list's table. -/
theorem asserts_sample : ∃ blob names, encode sample = some (blob, names) ∧
    asserts blob = some true := by
  obtain ⟨blob, names, hencode, hnames⟩ := exists_encode_sample
  have hasserts := (Compiled.ofEncode hencode totalLen_sample).asserts_eq
  refine ⟨blob, names, hencode, hasserts.trans ?_⟩
  simpa [Compiled.ofEncode] using hnames

theorem demands_sample : Demands (Listed sample) "shop.example.app.".toList := by
  refine ⟨by decide, Or.inr ⟨"app".toList, ⟨"shop.example".toList, by decide⟩, ?_⟩⟩
  exact ⟨_, List.mem_cons_of_mem _ List.mem_cons_self, rfl, ⟨_, rfl, by decide⟩, rfl⟩

/-- A table in which one name is found in another case, and a host is covered from above. -/
theorem reads_sample :
    ∃ blob names, encode sample = some (blob, names) ∧ totalLen sample ≤ offsetMask ∧
      lookup blob "GMail.com".toList = some (some false) ∧
      covers blob "shop.example.app.".toList = some true := by
  obtain ⟨blob, names, hencode, -⟩ := exists_encode_sample
  have hlen := totalLen_sample
  refine ⟨blob, names, hencode, hlen, ?_, ?_⟩
  · obtain ⟨⟨found, hfound, hiff⟩, _⟩ :=
      reads_encode sample blob names hencode hlen "GMail.com".toList
    rw [hfound, (hiff false).mpr ⟨_, List.mem_cons_self, rfl, ⟨_, rfl, by decide⟩, rfl⟩]
  · obtain ⟨_, covered, hcovered, hiff⟩ :=
      reads_encode sample blob names hencode hlen "shop.example.app.".toList
    rw [hcovered, hiff.mpr demands_sample]

end Chromulate.Http.Preload
