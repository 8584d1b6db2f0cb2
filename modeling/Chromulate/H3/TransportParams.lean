import Chromulate.Lib.Bytes
import Chromulate.Lib.Drain

/-!
# Transport parameters

`chromulate-h3/src/spike/transport_params.rs`: the body of the `quic_transport_parameters` extension
is a sequence of parameters, each an identifier, a length and that many bytes. The first two are
variable-length integers: the top two bits of the first byte say how many bytes there are, one, two,
four or eight, and the other bits are the number, so that a number can be written in each of the
sizes it fits.

`decode_exact`: decoding accepts exactly the sequences of written parameters, in whatever sizes,
and returns the parameters in order.
-/

namespace Chromulate.H3

open Drain (Stop drain Takes)

/-- `SpikeError`, as the decoders raise it: what was being decoded, and what went wrong. -/
inductive SpikeError where
  | malformed (part detail : Str)
  deriving DecidableEq

/-- What a decoder returns. -/
abbrev Decoded (α : Type) := Except (Stop SpikeError) α

def malformed {α : Type} (part : String) (detail : Str) : Decoded α :=
  .error (.failed (.malformed part.toList detail))

structure TransportParameter where
  id : UInt64
  value : Bytes
  deriving DecidableEq

/-- `read_varint`: the number, and how many bytes it takes. -/
def readVarint (bytes : Bytes) : Decoded (UInt64 × Nat) :=
  match bytes with
  | [] => malformed "varint" "buffer is empty".toList
  | first :: tail =>
    let length := 1 <<< (first >>> 6).toNat
    if bytes.length < length then
      malformed "varint" ("needs ".toList ++ Text.decimal length ++ " bytes, ".toList ++
        Text.decimal bytes.length ++ " remain".toList)
    else
      let value := (tail.take (length - 1)).foldl
        (fun (value : UInt64) byte => value <<< 8 ||| byte.toUInt64) (first &&& 0b00111111).toUInt64
      .ok (value, length)

/-- `usize::MAX` where a `usize` has 64 bits. -/
def usizeMax : Nat := 2 ^ 64 - 1

/-- `{:#x}`. -/
def lowerHex (n : Nat) : Str := "0x".toList ++ Nat.toDigits 16 n

/-- A round of the loop of `decode_transport_parameters`. -/
def decodeParameter (out : List TransportParameter) (bytes : Bytes) :
    Decoded (List TransportParameter × Bytes) := do
  let (id, consumed) ← readVarint bytes
  let bytes := bytes.drop consumed
  let (length, consumed) ← readVarint bytes
  let bytes := bytes.drop consumed
  if usizeMax < length.toNat then
    malformed "transport parameters" "length exceeds usize".toList
  else if bytes.length < length.toNat then
    malformed "transport parameters" ("parameter ".toList ++ lowerHex id.toNat ++
      " claims ".toList ++ Text.decimal length.toNat ++ " bytes, ".toList ++
      Text.decimal bytes.length ++ " remain".toList)
  else
    .ok (out ++ [{ id := id, value := bytes.take length.toNat }], bytes.drop length.toNat)

def decodeTransportParameters (bytes : Bytes) : Decoded (List TransportParameter) :=
  drain decodeParameter bytes.length [] bytes

/-! ## Variable-length integers -/

/-- The numbers that fit a size are those below this one. A size is the logarithm of the number of
bytes. -/
def capacity (size : Fin 4) : Nat := 2 ^ (8 * 2 ^ size.val - 2)

/-- A number written in a size. -/
def varint (size : Fin 4) (n : Nat) : Bytes :=
  Bytes.toBe (2 ^ size.val) (size.val * capacity size + n)

@[simp] theorem length_varint (size : Fin 4) (n : Nat) : (varint size n).length = 2 ^ size.val :=
  Bytes.length_toBe _ _

theorem capacity_eq (size : Fin 4) : capacity size = 64 * 256 ^ (2 ^ size.val - 1) := by
  revert size
  decide

theorem capacity_le (size : Fin 4) : capacity size ≤ 2 ^ 62 := by
  revert size
  decide

/-- The size and the number make a number of as many bytes as the size says. -/
theorem mul_capacity_add_lt {size : Fin 4} {n : Nat} (hfits : n < capacity size) :
    size.val * capacity size + n < 256 ^ 2 ^ size.val := by
  have hall : ∀ size : Fin 4, (size.val + 1) * capacity size ≤ 256 ^ 2 ^ size.val := by decide
  have hle := hall size
  rw [Nat.add_mul, Nat.one_mul] at hle
  omega

section Spelling

variable {size : Fin 4} {n : Nat} {first : UInt8} {tail : Bytes}

/-- The number below the two bits of the size. -/
def lowBits (first : UInt8) (tail : Bytes) : Nat :=
  first.toNat % 64 * 256 ^ tail.length + Bytes.ofBe tail

theorem lowBits_lt (hlen : tail.length = 2 ^ size.val - 1) :
    lowBits first tail < capacity size := by
  have htail := Bytes.ofBe_lt tail
  have hmod : first.toNat % 64 + 1 ≤ 64 := by omega
  have hle := Nat.mul_le_mul_right (256 ^ tail.length) hmod
  rw [capacity_eq, ← hlen, lowBits]
  rw [Nat.add_mul, Nat.one_mul] at hle
  omega

theorem ofBe_eq_lowBits (hlen : tail.length = 2 ^ size.val - 1) :
    Bytes.ofBe (first :: tail) = capacity size * (first.toNat / 64) + lowBits first tail := by
  rw [Bytes.ofBe_cons, capacity_eq, ← hlen, lowBits]
  nth_rewrite 1 [← Nat.div_add_mod first.toNat 64]
  rw [Nat.add_mul, Nat.add_assoc, Nat.mul_right_comm]

theorem varint_eq_cons (hfits : n < capacity size) :
    varint size n = first :: tail ↔
      tail.length = 2 ^ size.val - 1 ∧ first.toNat / 64 = size.val ∧ lowBits first tail = n := by
  have hpos : 0 < 2 ^ size.val := Nat.two_pow_pos _
  constructor
  · intro hvarint
    have hlen : tail.length = 2 ^ size.val - 1 := by
      have hlength := congrArg List.length hvarint
      rw [length_varint, List.length_cons] at hlength
      omega
    have hread : Bytes.ofBe (varint size n) = capacity size * size.val + n := by
      rw [varint, Bytes.ofBe_toBe (mul_capacity_add_lt hfits), Nat.mul_comm]
    rw [hvarint, ofBe_eq_lowBits hlen] at hread
    have hlow : lowBits first tail < capacity size := lowBits_lt hlen
    have hcapacity : 0 < capacity size := by omega
    have hdiv := congrArg (· / capacity size) hread
    have hmod := congrArg (· % capacity size) hread
    simp only [Nat.mul_add_div hcapacity, Nat.mul_add_mod, Nat.div_eq_of_lt hlow,
      Nat.div_eq_of_lt hfits, Nat.mod_eq_of_lt hlow, Nat.mod_eq_of_lt hfits,
      Nat.add_zero] at hdiv hmod
    exact ⟨hlen, hdiv, hmod⟩
  · intro ⟨hlen, hsize, hn⟩
    have hwidth : 2 ^ size.val = (first :: tail).length := by
      rw [List.length_cons]
      omega
    have hspell : size.val * capacity size + n = Bytes.ofBe (first :: tail) := by
      rw [ofBe_eq_lowBits hlen, hsize, hn, Nat.mul_comm]
    rw [varint, hspell, hwidth, Bytes.toBe_ofBe]

end Spelling

/-- One more byte on the number, while there is room for it. -/
theorem toNat_shiftLeft_or (value : UInt64) (byte : UInt8) (h : (value.toNat + 1) * 256 ≤ 2 ^ 64) :
    (value <<< 8 ||| byte.toUInt64).toNat = value.toNat * 256 + byte.toNat := by
  have hbyte : byte.toNat < 2 ^ 8 := byte.toNat_lt
  have hshift : (value <<< 8).toNat = value.toNat <<< 8 := by
    rw [UInt64.toNat_shiftLeft]
    apply Nat.mod_eq_of_lt
    show value.toNat <<< 8 < _
    rw [Nat.shiftLeft_eq]
    omega
  rw [UInt64.toNat_or, hshift, UInt8.toNat_toUInt64, ← Nat.shiftLeft_add_eq_or_of_lt hbyte,
    Nat.shiftLeft_eq]

/-- The loop of `read_varint`. -/
theorem toNat_foldl_shiftLeft (bytes : Bytes) (value : UInt64)
    (h : (value.toNat + 1) * 256 ^ bytes.length ≤ 2 ^ 64) :
    (bytes.foldl (fun (value : UInt64) byte => value <<< 8 ||| byte.toUInt64) value).toNat =
      value.toNat * 256 ^ bytes.length + Bytes.ofBe bytes := by
  induction bytes generalizing value with
  | nil => simp [Bytes.ofBe]
  | cons byte bytes ih =>
    have hpos : 0 < 256 ^ bytes.length := Nat.pow_pos (by decide)
    rw [List.length_cons, Nat.pow_succ', ← Nat.mul_assoc] at h
    have hroom : (value.toNat + 1) * 256 ≤ 2 ^ 64 :=
      (Nat.le_mul_of_pos_right _ hpos).trans h
    have hstep := toNat_shiftLeft_or value byte hroom
    have hlt := byte.toNat_lt
    rw [List.foldl_cons, ih, hstep, Bytes.ofBe_cons, List.length_cons, Nat.pow_succ',
      Nat.add_mul, Nat.mul_assoc, Nat.add_assoc]
    rw [hstep]
    exact (Nat.mul_le_mul_right _ (by omega)).trans h

theorem toNat_foldl_eq_lowBits {size : Fin 4} (first : UInt8) {tail : Bytes}
    (hlen : tail.length = 2 ^ size.val - 1) :
    (tail.foldl (fun (value : UInt64) byte => value <<< 8 ||| byte.toUInt64)
      (first &&& 0b00111111).toUInt64).toNat = lowBits first tail := by
  have hmask : (first &&& 0b00111111).toUInt64.toNat = first.toNat % 64 := by
    rw [UInt8.toNat_toUInt64, UInt8.toNat_and]
    exact Nat.and_two_pow_sub_one_eq_mod first.toNat 6
  rw [toNat_foldl_shiftLeft, hmask, lowBits]
  have hle := capacity_le size
  have hmul : (first.toNat % 64 + 1) * 256 ^ tail.length ≤ 64 * 256 ^ tail.length :=
    Nat.mul_le_mul_right _ (by omega)
  rw [capacity_eq, ← hlen] at hle
  rw [hmask]
  omega

theorem shiftLeft_shiftRight_eq (first : UInt8) :
    1 <<< (first >>> 6).toNat = 2 ^ (first.toNat / 64) := by
  rw [Nat.one_shiftLeft, UInt8.toNat_shiftRight]
  exact congrArg (2 ^ ·) (Nat.shiftRight_eq_div_pow first.toNat 6)

/-- **`read_varint` reads exactly the written numbers**, in whatever size. -/
theorem readVarint_eq_ok {bytes : Bytes} {value : UInt64} {length : Nat} :
    readVarint bytes = .ok (value, length) ↔
      ∃ (size : Fin 4) (rest : Bytes), value.toNat < capacity size ∧
        length = 2 ^ size.val ∧ bytes = varint size value.toNat ++ rest := by
  constructor
  · intro hread
    cases bytes with
    | nil => cases hread
    | cons first tail =>
      let size : Fin 4 := ⟨first.toNat / 64, by have := first.toNat_lt; omega⟩
      simp only [readVarint, shiftLeft_shiftRight_eq] at hread
      split at hread
      · cases hread
      · rename_i hroom
        cases hread
        have hlen : (tail.take (2 ^ size.val - 1)).length = 2 ^ size.val - 1 := by
          have hlong : ¬ tail.length + 1 < 2 ^ size.val := hroom
          rw [List.length_take]
          omega
        refine ⟨size, tail.drop (2 ^ size.val - 1), ?_, rfl, ?_⟩
        · rw [toNat_foldl_eq_lowBits first hlen]
          exact lowBits_lt hlen
        · rw [toNat_foldl_eq_lowBits first hlen,
            (varint_eq_cons (lowBits_lt hlen)).mpr ⟨hlen, rfl, rfl⟩, List.cons_append,
            List.take_append_drop]
  · intro ⟨size, rest, hfits, hlength, hbytes⟩
    cases hvarint : varint size value.toNat with
    | nil =>
      have hempty := congrArg List.length hvarint
      rw [length_varint] at hempty
      exact absurd hempty (Nat.two_pow_pos _).ne'
    | cons first tail =>
      obtain ⟨hlen, hsize, hlow⟩ := (varint_eq_cons hfits).mp hvarint
      have hvalue := toNat_foldl_eq_lowBits first hlen
      rw [hbytes, hvarint, List.cons_append]
      simp only [readVarint, shiftLeft_shiftRight_eq, hsize]
      rw [if_neg]
      · rw [← hlen, List.take_left]
        refine congrArg Except.ok (Prod.ext ?_ hlength.symm)
        exact UInt64.toNat_inj.mp (hvalue.trans hlow)
      · simp only [List.length_cons, List.length_append]
        omega

/-! ## Parameters -/

/-- A parameter with the sizes its identifier and its length are written in. -/
structure Written where
  parameter : TransportParameter
  idSize : Fin 4
  lengthSize : Fin 4
  id_fits : parameter.id.toNat < capacity idSize
  length_fits : parameter.value.length < capacity lengthSize

namespace Written

def bytes (w : Written) : Bytes :=
  varint w.idSize w.parameter.id.toNat ++
    (varint w.lengthSize w.parameter.value.length ++ w.parameter.value)

theorem exists_of_lt {parameter : TransportParameter} (hid : parameter.id.toNat < 2 ^ 62)
    (hlength : parameter.value.length < 2 ^ 62) : ∃ w : Written, w.parameter = parameter :=
  ⟨⟨parameter, 3, 3, hid, hlength⟩, rfl⟩

end Written

theorem drop_varint (size : Fin 4) (n : Nat) (rest : Bytes) :
    (varint size n ++ rest).drop (2 ^ size.val) = rest := by
  rw [← length_varint size n, List.drop_left]

theorem decodeParameter_bytes (out : List TransportParameter) (w : Written) (rest : Bytes) :
    decodeParameter out (w.bytes ++ rest) = .ok (out ++ [w.parameter], rest) := by
  have hcapacity := capacity_le w.lengthSize
  have hfits := w.length_fits
  have hlength : (UInt64.ofNat w.parameter.value.length).toNat = w.parameter.value.length := by
    rw [UInt64.toNat_ofNat']
    omega
  rw [Written.bytes, List.append_assoc, List.append_assoc]
  refine Drain.bind_eq_ok.mpr ⟨(w.parameter.id, 2 ^ w.idSize.val), ?_, ?_⟩
  · exact readVarint_eq_ok.mpr ⟨w.idSize, _, w.id_fits, rfl, rfl⟩
  · dsimp only
    rw [drop_varint]
    refine Drain.bind_eq_ok.mpr
      ⟨(UInt64.ofNat w.parameter.value.length, 2 ^ w.lengthSize.val), ?_, ?_⟩
    · exact readVarint_eq_ok.mpr
        ⟨w.lengthSize, _, hlength.trans_lt hfits, rfl, by rw [hlength]⟩
    · dsimp only
      rw [drop_varint, hlength, if_neg (by rw [usizeMax]; omega),
        if_neg (by rw [List.length_append]; omega), List.take_left, List.drop_left]

theorem exists_of_decodeParameter {out next : List TransportParameter} {bytes rest : Bytes}
    (h : decodeParameter out bytes = .ok (next, rest)) :
    ∃ w : Written, next = out ++ [w.parameter] ∧ bytes = w.bytes ++ rest := by
  obtain ⟨⟨id, consumed⟩, hid, h⟩ := Drain.bind_eq_ok.mp h
  obtain ⟨idSize, behind, hidFits, rfl, rfl⟩ := readVarint_eq_ok.mp hid
  dsimp only at h
  rw [drop_varint] at h
  obtain ⟨⟨length, consumed⟩, hlength, h⟩ := Drain.bind_eq_ok.mp h
  obtain ⟨lengthSize, body, hlengthFits, rfl, rfl⟩ := readVarint_eq_ok.mp hlength
  dsimp only at h
  rw [drop_varint] at h
  split at h
  · cases h
  · split at h
    · cases h
    · rename_i hroom
      cases h
      have htake : (body.take length.toNat).length = length.toNat := by
        rw [List.length_take]
        omega
      refine ⟨⟨⟨id, body.take length.toNat⟩, idSize, lengthSize, hidFits, ?_⟩, rfl, ?_⟩
      · rw [htake]
        exact hlengthFits
      · simp [Written.bytes, htake]

theorem Written.bytes_ne_nil (w : Written) : w.bytes ≠ [] := by
  apply List.ne_nil_of_length_pos
  have hpos : 0 < 2 ^ w.idSize.val := Nat.two_pow_pos _
  rw [Written.bytes, List.length_append, length_varint]
  omega

/-- A round takes exactly one written parameter off the front. -/
theorem takes_decodeParameter :
    Takes decodeParameter (fun out (w : Written) => out ++ [w.parameter]) Written.bytes where
  ok_iff out bytes next rest := by
    constructor
    · exact exists_of_decodeParameter
    · intro ⟨w, hnext, hbytes⟩
      rw [hnext, hbytes]
      exact decodeParameter_bytes out w rest
  ne_nil := Written.bytes_ne_nil

theorem decodeTransportParameters_eq_ok {bytes : Bytes} {out : List TransportParameter} :
    decodeTransportParameters bytes = .ok out ↔
      ∃ items : List Written, out = items.map Written.parameter ∧
        bytes = items.flatMap Written.bytes := by
  rw [decodeTransportParameters, Drain.drain_eq_ok takes_decodeParameter (Nat.le_refl _)]
  simp only [Drain.foldl_collect, List.nil_append]

/-! ## The end of a decoding -/

theorem readVarint_ne_unfinished (bytes : Bytes) : readVarint bytes ≠ .error .unfinished := by
  cases bytes with
  | nil => simp [readVarint, malformed]
  | cons first tail =>
    simp only [readVarint]
    split <;> simp [malformed]

theorem bind_ne_unfinished {α β : Type} {x : Decoded α} {f : α → Decoded β}
    (hx : x ≠ .error .unfinished) (hf : ∀ a, f a ≠ .error .unfinished) :
    x >>= f ≠ .error .unfinished := by
  cases x with
  | error stop => exact fun h => hx (by cases h; rfl)
  | ok a => exact hf a

theorem decodeParameter_ne_unfinished (out : List TransportParameter) (bytes : Bytes) :
    decodeParameter out bytes ≠ .error .unfinished := by
  refine bind_ne_unfinished (readVarint_ne_unfinished _) fun id => ?_
  refine bind_ne_unfinished (readVarint_ne_unfinished _) fun length => ?_
  dsimp only
  split
  · simp [malformed]
  · split <;> simp [malformed]

/-- **Decoding is exact.** A sequence of parameters, each with an identifier and a length below
2^62 in any sizes they fit, decodes to the parameters in order. What decodes is such a sequence. The
start of a sequence decodes only if it ends between two parameters. Every decoding ends. -/
theorem decode_exact :
    (∀ parameter : TransportParameter, parameter.id.toNat < 2 ^ 62 →
      parameter.value.length < 2 ^ 62 → ∃ w : Written, w.parameter = parameter) ∧
    (∀ items : List Written,
      decodeTransportParameters (items.flatMap Written.bytes) =
        .ok (items.map Written.parameter)) ∧
    (∀ bytes out, decodeTransportParameters bytes = .ok out →
      ∃ items : List Written, out = items.map Written.parameter ∧
        bytes = items.flatMap Written.bytes) ∧
    (∀ (items : List Written) (front back : Bytes),
      items.flatMap Written.bytes = front ++ back →
        (∀ k, front ≠ (items.take k).flatMap Written.bytes) →
          ∀ out, decodeTransportParameters front ≠ .ok out) ∧
    ∀ bytes, decodeTransportParameters bytes ≠ .error .unfinished := by
  refine ⟨?_, ?_, ?_, ?_, ?_⟩
  · intro parameter hid hlength
    exact Written.exists_of_lt hid hlength
  · intro items
    exact decodeTransportParameters_eq_ok.mpr ⟨items, rfl, rfl⟩
  · intro bytes out hdecode
    exact decodeTransportParameters_eq_ok.mp hdecode
  · intro items front back hitems hcut out hdecode
    obtain ⟨others, -, hfront⟩ := decodeTransportParameters_eq_ok.mp hdecode
    rw [hfront] at hitems
    obtain ⟨k, hk⟩ := takes_decodeParameter.exists_take [] hitems.symm
    exact hcut k (hfront.trans hk)
  · intro bytes
    exact Drain.drain_ne_unfinished takes_decodeParameter decodeParameter_ne_unfinished
      (Nat.le_refl _)

end Chromulate.H3
