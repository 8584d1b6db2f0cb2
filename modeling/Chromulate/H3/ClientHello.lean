import Chromulate.H3.TransportParams
import Chromulate.Lib.Utf8

/-!
# Decoding a ClientHello

`chromulate-h3/src/spike/client_hello.rs`. Fields stand behind their lengths, and a reader for a
field is dropped once the last part has been read that the code asks for. The message, its body and
the payload of an extension may go on behind that part, and nothing asks whether they do; so
`parseUnread` returns, beside what was observed, the bytes that the readers still held when they
were dropped.

* `parseUnread_bytes`: the serialisation of a ClientHello is read to its last byte.
* `observes_noted`: when no extension occurs twice, what is observed are its lists, in wire order.
* `parse_exact`: and what is accepted is read to its last byte only if it is such a serialisation.
-/

namespace Chromulate.H3

open Drain (drain Takes bind_eq_ok)

/-! ## Readers -/

namespace Reader

variable {bytes field rest : Bytes}

/-- `Reader::take`: the next bytes, and those behind them. -/
def take (count : Nat) (bytes : Bytes) : Decoded (Bytes × Bytes) :=
  if bytes.length < count then
    malformed "ClientHello" ("needs ".toList ++ Text.decimal count ++ " bytes, ".toList ++
      Text.decimal bytes.length ++ " remain".toList)
  else .ok (bytes.take count, bytes.drop count)

def u8 (bytes : Bytes) : Decoded (UInt8 × Bytes) := do
  let (field, rest) ← take 1 bytes
  .ok (UInt8.ofNat (Bytes.ofBe field), rest)

def u16 (bytes : Bytes) : Decoded (UInt16 × Bytes) := do
  let (field, rest) ← take 2 bytes
  .ok (UInt16.ofNat (Bytes.ofBe field), rest)

def u24 (bytes : Bytes) : Decoded (Nat × Bytes) := do
  let (field, rest) ← take 3 bytes
  .ok (Bytes.ofBe field, rest)

/-- `Reader::u8` for a length, and `Reader::take`. -/
def lengthPrefixedU8 (bytes : Bytes) : Decoded (Bytes × Bytes) := do
  let (length, rest) ← u8 bytes
  take length.toNat rest

def lengthPrefixedU16 (bytes : Bytes) : Decoded (Bytes × Bytes) := do
  let (length, rest) ← u16 bytes
  take length.toNat rest

def u16List (bytes : Bytes) : Decoded (List UInt16) :=
  drain (fun out bytes => do
    let (value, rest) ← u16 bytes
    .ok (out ++ [value], rest)) bytes.length [] bytes

/-! ### What they read -/

/-- A number of two bytes. -/
def u16Bytes (value : UInt16) : Bytes := Bytes.toBe 2 value.toNat

/-- A field behind its length, which takes `width` bytes. -/
def vector (width : Nat) (field : Bytes) : Bytes :=
  Bytes.toBe width field.length ++ field

@[simp] theorem length_u16Bytes (value : UInt16) : (u16Bytes value).length = 2 :=
  Bytes.length_toBe _ _

@[simp] theorem length_vector (width : Nat) (field : Bytes) :
    (vector width field).length = width + field.length := by
  simp [vector]

theorem take_eq_ok {count : Nat} :
    take count bytes = .ok (field, rest) ↔ field.length = count ∧ bytes = field ++ rest := by
  rw [take]
  constructor
  · intro h
    split at h
    · cases h
    · cases h
      rw [List.length_take]
      exact ⟨by omega, (List.take_append_drop _ _).symm⟩
  · intro ⟨hlength, hbytes⟩
    subst hlength hbytes
    rw [if_neg (by simp), List.take_left, List.drop_left]

/-- A number of `width` bytes is read where it was written. -/
theorem take_bind_eq_ok {α : Type} (of : Nat → α) {width : Nat} {value : α} :
    (take width bytes >>= fun (next : Bytes × Bytes) =>
      (.ok (of (Bytes.ofBe next.1), next.2) : Decoded (α × Bytes))) = .ok (value, rest) ↔
      ∃ n < 256 ^ width, value = of n ∧ bytes = Bytes.toBe width n ++ rest := by
  rw [bind_eq_ok]
  constructor
  · intro ⟨next, htake, hvalue⟩
    obtain ⟨hlength, hbytes⟩ := take_eq_ok.mp htake
    cases hvalue
    refine ⟨Bytes.ofBe next.1, ?_, rfl, ?_⟩
    · rw [← hlength]
      exact Bytes.ofBe_lt _
    · rw [hbytes, ← hlength, Bytes.toBe_ofBe]
  · intro ⟨n, hn, hvalue, hbytes⟩
    refine ⟨(Bytes.toBe width n, rest), take_eq_ok.mpr ⟨Bytes.length_toBe _ _, hbytes⟩, ?_⟩
    rw [Bytes.ofBe_toBe hn, hvalue]

theorem u8_eq_ok {value : UInt8} :
    u8 bytes = .ok (value, rest) ↔ bytes = Bytes.toBe 1 value.toNat ++ rest := by
  refine (take_bind_eq_ok UInt8.ofNat).trans ?_
  constructor
  · intro ⟨n, hn, hvalue, hbytes⟩
    rw [hbytes, hvalue, UInt8.toNat_ofNat', Nat.mod_eq_of_lt (show n < 2 ^ 8 from hn)]
  · intro hbytes
    exact ⟨value.toNat, value.toNat_lt, UInt8.ofNat_toNat.symm, hbytes⟩

theorem u16_eq_ok {value : UInt16} :
    u16 bytes = .ok (value, rest) ↔ bytes = u16Bytes value ++ rest := by
  refine (take_bind_eq_ok UInt16.ofNat).trans ?_
  constructor
  · intro ⟨n, hn, hvalue, hbytes⟩
    rw [hbytes, hvalue, u16Bytes, UInt16.toNat_ofNat', Nat.mod_eq_of_lt (show n < 2 ^ 16 from hn)]
  · intro hbytes
    exact ⟨value.toNat, value.toNat_lt, UInt16.ofNat_toNat.symm, hbytes⟩

theorem u24_eq_ok {n : Nat} :
    u24 bytes = .ok (n, rest) ↔ n < 256 ^ 3 ∧ bytes = Bytes.toBe 3 n ++ rest := by
  refine (take_bind_eq_ok id).trans ?_
  constructor
  · intro ⟨m, hm, hn, hbytes⟩
    rw [hn]
    exact ⟨hm, hbytes⟩
  · intro ⟨hn, hbytes⟩
    exact ⟨n, hn, rfl, hbytes⟩

/-- A field is read where it was written behind its length, for any way to read the length. -/
theorem prefixed_eq_ok {α : Type} {read : Bytes → Decoded (α × Bytes)} {toNat : α → Nat}
    {width : Nat} (hread : ∀ {bytes value rest}, read bytes = .ok (value, rest) ↔
      bytes = Bytes.toBe width (toNat value) ++ rest)
    (hlt : ∀ value, toNat value < 256 ^ width)
    (hvalue : ∀ n < 256 ^ width, ∃ value, toNat value = n) :
    (read bytes >>= fun (next : α × Bytes) => take (toNat next.1) next.2) = .ok (field, rest) ↔
      field.length < 256 ^ width ∧ bytes = vector width field ++ rest := by
  rw [bind_eq_ok]
  constructor
  · intro ⟨next, hlength, htake⟩
    obtain ⟨hfield, hrest⟩ := take_eq_ok.mp htake
    rw [hread.mp hlength, hrest, vector, hfield, List.append_assoc]
    exact ⟨hlt next.1, rfl⟩
  · intro ⟨hfield, hbytes⟩
    obtain ⟨value, hlength⟩ := hvalue field.length hfield
    refine ⟨(value, field ++ rest), hread.mpr ?_, take_eq_ok.mpr ⟨hlength.symm, rfl⟩⟩
    rw [hlength, hbytes, vector, List.append_assoc]

theorem lengthPrefixedU8_eq_ok :
    lengthPrefixedU8 bytes = .ok (field, rest) ↔
      field.length < 256 ∧ bytes = vector 1 field ++ rest :=
  prefixed_eq_ok u8_eq_ok UInt8.toNat_lt fun n hn => ⟨UInt8.ofNat n, Nat.mod_eq_of_lt hn⟩

theorem lengthPrefixedU16_eq_ok :
    lengthPrefixedU16 bytes = .ok (field, rest) ↔
      field.length < 65536 ∧ bytes = vector 2 field ++ rest :=
  prefixed_eq_ok u16_eq_ok UInt16.toNat_lt fun n hn => ⟨UInt16.ofNat n, Nat.mod_eq_of_lt hn⟩

theorem u16List_eq_ok {values : List UInt16} :
    u16List bytes = .ok values ↔ bytes = values.flatMap u16Bytes := by
  have htakes : Takes (fun out bytes => do
      let (value, rest) ← u16 bytes
      (.ok (out ++ [value], rest) : Decoded (List UInt16 × Bytes)))
      (fun out value => out ++ [value]) u16Bytes := by
    constructor
    · intro out bytes next rest
      rw [bind_eq_ok]
      constructor
      · intro ⟨read, hread, hnext⟩
        cases hnext
        exact ⟨read.1, rfl, u16_eq_ok.mp hread⟩
      · intro ⟨value, hnext, hbytes⟩
        exact ⟨(value, rest), u16_eq_ok.mpr hbytes, by rw [hnext]⟩
    · intro value hnil
      have hlength := congrArg List.length hnil
      simp at hlength
  rw [u16List, Drain.drain_eq_ok htakes (Nat.le_refl _)]
  simp only [Drain.foldl_collect (fun value : UInt16 => value), List.map_id', List.nil_append]
  constructor
  · intro ⟨items, hvalues, hbytes⟩
    rw [hvalues, hbytes]
  · intro hbytes
    exact ⟨values, rfl, hbytes⟩

end Reader

open Reader

/-! ## Extensions -/

/-- The extensions that are read by name. -/
inductive Ext where
  | supportedGroups
  | supportedVersions
  | signatureAlgorithms
  | ecPointFormats
  | pskKeyExchangeModes
  | compressCertificate
  | keyShare
  | alpn
  | quicTransportParameters
  deriving DecidableEq

namespace Ext

/-- Their code points. -/
def id : Ext → UInt16
  | supportedGroups => 0x000a
  | supportedVersions => 0x002b
  | signatureAlgorithms => 0x000d
  | ecPointFormats => 0x000b
  | pskKeyExchangeModes => 0x002d
  | compressCertificate => 0x001b
  | keyShare => 0x0033
  | alpn => 0x0010
  | quicTransportParameters => 0x0039

/-- The extension of a code point, if it is one of them. -/
def ofId (id : UInt16) : Option Ext :=
  [supportedGroups, supportedVersions, signatureAlgorithms, ecPointFormats, pskKeyExchangeModes,
    compressCertificate, keyShare, alpn, quicTransportParameters].find? (·.id = id)

theorem ofId_id (ext : Ext) : ofId ext.id = some ext := by
  cases ext <;> decide

theorem id_of_ofId {id : UInt16} {ext : Ext} (h : ofId id = some ext) : ext.id = id := by
  simpa using List.find?_some h

end Ext

structure ObservedClientHello where
  handshakeVersion : UInt16 := 0
  cipherSuites : List UInt16 := []
  extensions : List UInt16 := []
  supportedVersions : List UInt16 := []
  supportedGroups : List UInt16 := []
  keyShareGroups : List UInt16 := []
  signatureAlgorithms : List UInt16 := []
  alpn : List Str := []
  pskKeyExchangeModes : Bytes := []
  ecPointFormats : Bytes := []
  certificateCompression : List UInt16 := []
  quicTransportParameters : Option Bytes := none
  deriving DecidableEq

/-- A list behind its length: what is read of it, and what follows it. -/
def listIn {α : Type} (prefixed : Bytes → Decoded (Bytes × Bytes))
    (read : Bytes → Decoded α) (payload : Bytes) : Decoded (α × Bytes) := do
  let (list, left) ← prefixed payload
  let value ← read list
  .ok (value, left)

/-- A round of the loop over the key shares. -/
def readKeyShare (groups : List UInt16) (entries : Bytes) :
    Decoded (List UInt16 × Bytes) := do
  let (group, entries) ← u16 entries
  let (_, entries) ← lengthPrefixedU16 entries
  .ok (groups ++ [group], entries)

/-- A round of the loop over the protocol names. -/
def readName (names : List Str) (list : Bytes) : Decoded (List Str × Bytes) := do
  let (name, list) ← lengthPrefixedU8 list
  .ok (names ++ [Utf8.fromUtf8Lossy name], list)

/-- `read_extension`, with what its reader has left. A payload that is taken as a whole, or not
looked into, leaves nothing. -/
def readExtension (observed : ObservedClientHello) (id : UInt16) (payload : Bytes) :
    Decoded (ObservedClientHello × Bytes) :=
  match Ext.ofId id with
  | some .supportedGroups => do
    let (groups, left) ← listIn lengthPrefixedU16 u16List payload
    .ok ({ observed with supportedGroups := groups }, left)
  | some .supportedVersions => do
    let (versions, left) ← listIn lengthPrefixedU8 u16List payload
    .ok ({ observed with supportedVersions := versions }, left)
  | some .signatureAlgorithms => do
    let (schemes, left) ← listIn lengthPrefixedU16 u16List payload
    .ok ({ observed with signatureAlgorithms := schemes }, left)
  | some .ecPointFormats => do
    let (formats, left) ← listIn lengthPrefixedU8 .ok payload
    .ok ({ observed with ecPointFormats := formats }, left)
  | some .pskKeyExchangeModes => do
    let (modes, left) ← listIn lengthPrefixedU8 .ok payload
    .ok ({ observed with pskKeyExchangeModes := modes }, left)
  | some .compressCertificate => do
    let (algorithms, left) ← listIn lengthPrefixedU8 u16List payload
    .ok ({ observed with certificateCompression := algorithms }, left)
  | some .keyShare => do
    let (groups, left) ← listIn lengthPrefixedU16
      (fun entries => drain readKeyShare entries.length observed.keyShareGroups entries) payload
    .ok ({ observed with keyShareGroups := groups }, left)
  | some .alpn => do
    let (names, left) ← listIn lengthPrefixedU16
      (fun list => drain readName list.length observed.alpn list) payload
    .ok ({ observed with alpn := names }, left)
  | some .quicTransportParameters =>
    .ok ({ observed with quicTransportParameters := some payload }, [])
  | none => .ok (observed, [])

/-- A round of the loop over the extensions, with what the readers of the payloads have left. -/
def readNext (seen : ObservedClientHello × Bytes) (extensions : Bytes) :
    Decoded ((ObservedClientHello × Bytes) × Bytes) := do
  let (id, extensions) ← u16 extensions
  let (payload, extensions) ← lengthPrefixedU16 extensions
  let (observed, left) ←
    readExtension { seen.1 with extensions := seen.1.extensions ++ [id] } id payload
  .ok ((observed, seen.2 ++ left), extensions)

/-- `ObservedClientHello::parse`, with the bytes its readers have left. -/
def parseUnread (handshake : Bytes) : Decoded (ObservedClientHello × Bytes) := do
  let (kind, reader) ← u8 handshake
  if kind ≠ 1 then malformed "handshake" "first message is not a ClientHello".toList
  else
    let (bodyLen, reader) ← u24 reader
    let (body, reader) ← take bodyLen reader
    let (version, body) ← u16 body
    let (_, body) ← take 32 body
    let (_, body) ← lengthPrefixedU8 body
    let (cipherBytes, body) ← lengthPrefixedU16 body
    let cipherSuites ← u16List cipherBytes
    let (_, body) ← lengthPrefixedU8 body
    let observed : ObservedClientHello :=
      { handshakeVersion := version, cipherSuites := cipherSuites }
    if body.isEmpty then .ok (observed, reader)
    else
      let (extensions, body) ← lengthPrefixedU16 body
      let (observed, unread) ← drain readNext extensions.length (observed, []) extensions
      .ok (observed, unread ++ body ++ reader)

def parse (handshake : Bytes) : Decoded ObservedClientHello := do
  let (observed, _) ← parseUnread handshake
  .ok observed

/-! ## The format -/

/-- An entry of the key shares. -/
structure KeyShareEntry where
  group : UInt16
  key : Bytes
  key_length : key.length < 65536

/-- The name of a protocol. -/
structure ProtocolName where
  name : Bytes
  name_length : name.length < 256

def KeyShareEntry.bytes (entry : KeyShareEntry) : Bytes :=
  u16Bytes entry.group ++ vector 2 entry.key

def ProtocolName.bytes (protocol : ProtocolName) : Bytes := vector 1 protocol.name

/-- What an extension says. -/
inductive Content where
  | supportedGroups (groups : List UInt16)
  | supportedVersions (versions : List UInt16)
  | signatureAlgorithms (schemes : List UInt16)
  | ecPointFormats (formats : Bytes)
  | pskKeyExchangeModes (modes : Bytes)
  | compressCertificate (algorithms : List UInt16)
  | keyShare (entries : List KeyShareEntry)
  | alpn (names : List ProtocolName)
  | quicTransportParameters (body : Bytes)
  | other (id : UInt16) (payload : Bytes) (unknown : Ext.ofId id = none)

namespace Content

def id : Content → UInt16
  | supportedGroups _ => Ext.supportedGroups.id
  | supportedVersions _ => Ext.supportedVersions.id
  | signatureAlgorithms _ => Ext.signatureAlgorithms.id
  | ecPointFormats _ => Ext.ecPointFormats.id
  | pskKeyExchangeModes _ => Ext.pskKeyExchangeModes.id
  | compressCertificate _ => Ext.compressCertificate.id
  | keyShare _ => Ext.keyShare.id
  | alpn _ => Ext.alpn.id
  | quicTransportParameters _ => Ext.quicTransportParameters.id
  | other id _ _ => id

def payload : Content → Bytes
  | supportedGroups values | signatureAlgorithms values => vector 2 (values.flatMap u16Bytes)
  | supportedVersions values | compressCertificate values => vector 1 (values.flatMap u16Bytes)
  | ecPointFormats values | pskKeyExchangeModes values => vector 1 values
  | keyShare entries => vector 2 (entries.flatMap KeyShareEntry.bytes)
  | alpn names => vector 2 (names.flatMap ProtocolName.bytes)
  | quicTransportParameters body => body
  | other _ payload _ => payload

/-- A list whose length takes one byte is short enough for it. -/
def Short : Content → Prop
  | supportedVersions values | compressCertificate values =>
    (values.flatMap u16Bytes).length < 256
  | ecPointFormats values | pskKeyExchangeModes values => values.length < 256
  | _ => True

/-- The payload is taken as a whole, or not looked into. -/
def IsWhole : Content → Prop
  | quicTransportParameters _ | other _ _ _ => True
  | _ => False

/-- What is noted of an extension. -/
def note (observed : ObservedClientHello) : Content → ObservedClientHello
  | supportedGroups groups => { observed with supportedGroups := groups }
  | supportedVersions versions => { observed with supportedVersions := versions }
  | signatureAlgorithms schemes => { observed with signatureAlgorithms := schemes }
  | ecPointFormats formats => { observed with ecPointFormats := formats }
  | pskKeyExchangeModes modes => { observed with pskKeyExchangeModes := modes }
  | compressCertificate algorithms => { observed with certificateCompression := algorithms }
  | keyShare entries =>
    { observed with
      keyShareGroups := observed.keyShareGroups ++ entries.map KeyShareEntry.group }
  | alpn names =>
    { observed with
      alpn := observed.alpn ++ names.map fun protocol => Utf8.fromUtf8Lossy protocol.name }
  | quicTransportParameters body => { observed with quicTransportParameters := some body }
  | other _ _ _ => observed

end Content

/-! ## Reading an extension -/

section ListIn

variable {prefixed : Bytes → Decoded (Bytes × Bytes)} {payload left : Bytes}
  {bound width : Nat} (hprefixed : ∀ {list}, prefixed payload = .ok (list, left) ↔
    list.length < bound ∧ payload = vector width list ++ left)

include hprefixed

theorem listIn_eq_ok {α : Type} {read : Bytes → Decoded α} {value : α} :
    listIn prefixed read payload = .ok (value, left) ↔
      ∃ list, read list = .ok value ∧
        list.length < bound ∧ payload = vector width list ++ left := by
  rw [listIn, bind_eq_ok]
  constructor
  · intro ⟨next, hnext, hread⟩
    obtain ⟨other, hother, hvalue⟩ := bind_eq_ok.mp hread
    cases hvalue
    exact ⟨next.1, hother, hprefixed.mp hnext⟩
  · intro ⟨list, hread, hlist⟩
    exact ⟨(list, left), hprefixed.mpr hlist, bind_eq_ok.mpr ⟨value, hread, rfl⟩⟩

theorem listIn_u16List_eq_ok {values : List UInt16} :
    listIn prefixed u16List payload = .ok (values, left) ↔
      (values.flatMap u16Bytes).length < bound ∧
        payload = vector width (values.flatMap u16Bytes) ++ left := by
  simp only [listIn_eq_ok hprefixed, u16List_eq_ok, exists_eq_left]

theorem listIn_ok_eq_ok {values : Bytes} :
    listIn prefixed .ok payload = .ok (values, left) ↔
      values.length < bound ∧ payload = vector width values ++ left := by
  simp only [listIn_eq_ok hprefixed, Except.ok.injEq, exists_eq_left]

/-- A list of items is read by a loop that takes them one by one. -/
theorem listIn_drain_eq_ok {α ι : Type} {view : ι → α} {bytes : ι → Bytes}
    {round : List α → Bytes → Decoded (List α × Bytes)} {out values : List α}
    (htakes : Takes round (fun out item => out ++ [view item]) bytes) :
    listIn prefixed (fun list => drain round list.length out list) payload = .ok (values, left) ↔
      ∃ items : List ι, values = out ++ items.map view ∧ (items.flatMap bytes).length < bound ∧
        payload = vector width (items.flatMap bytes) ++ left := by
  rw [listIn_eq_ok hprefixed]
  constructor
  · intro ⟨list, hread, hlist⟩
    obtain ⟨items, hvalues, hbytes⟩ := (Drain.drain_eq_ok htakes (Nat.le_refl _)).mp hread
    rw [hbytes] at hlist
    exact ⟨items, hvalues.trans (Drain.foldl_collect view out items), hlist⟩
  · intro ⟨items, hvalues, hlist⟩
    refine ⟨_, ?_, hlist⟩
    rw [Drain.drain_flatMap htakes items (Nat.le_refl _), Drain.foldl_collect, hvalues]

end ListIn

theorem takes_readKeyShare :
    Takes readKeyShare (fun groups (entry : KeyShareEntry) => groups ++ [entry.group])
      KeyShareEntry.bytes := by
  constructor
  · intro groups entries next rest
    rw [readKeyShare, bind_eq_ok]
    constructor
    · intro ⟨read, hgroup, hread⟩
      obtain ⟨key, hkey, hnext⟩ := bind_eq_ok.mp hread
      cases hnext
      obtain ⟨hlength, hbytes⟩ := lengthPrefixedU16_eq_ok.mp hkey
      refine ⟨⟨read.1, key.1, hlength⟩, rfl, ?_⟩
      rw [u16_eq_ok.mp hgroup, hbytes, KeyShareEntry.bytes, List.append_assoc]
    · intro ⟨entry, hnext, hentries⟩
      rw [KeyShareEntry.bytes, List.append_assoc] at hentries
      refine ⟨(entry.group, vector 2 entry.key ++ rest), u16_eq_ok.mpr hentries,
        bind_eq_ok.mpr ⟨(entry.key, rest), ?_, by rw [hnext]⟩⟩
      exact lengthPrefixedU16_eq_ok.mpr ⟨entry.key_length, rfl⟩
  · intro entry hnil
    have hlength := congrArg List.length hnil
    simp [KeyShareEntry.bytes] at hlength

theorem takes_readName :
    Takes readName
      (fun names (protocol : ProtocolName) => names ++ [Utf8.fromUtf8Lossy protocol.name])
      ProtocolName.bytes := by
  constructor
  · intro names list next rest
    rw [readName, bind_eq_ok]
    constructor
    · intro ⟨read, hread, hnext⟩
      cases hnext
      obtain ⟨hlength, hbytes⟩ := lengthPrefixedU8_eq_ok.mp hread
      exact ⟨⟨read.1, hlength⟩, rfl, hbytes⟩
    · intro ⟨protocol, hnext, hlist⟩
      refine ⟨(protocol.name, rest), lengthPrefixedU8_eq_ok.mpr ?_, by rw [hnext]⟩
      exact ⟨protocol.name_length, hlist⟩
  · intro protocol hnil
    have hlength := congrArg List.length hnil
    simp [ProtocolName.bytes] at hlength

section ReadExtension

variable {observed next : ObservedClientHello} {id : UInt16} {payload left : Bytes}

theorem exists_of_readExtension (h : readExtension observed id payload = .ok (next, left)) :
    ∃ content : Content, content.id = id ∧ content.Short ∧ payload = content.payload ++ left ∧
      (content.IsWhole → left = []) ∧ next = content.note observed := by
  rw [readExtension] at h
  split at h <;> rename_i hid
  case h_9 => -- the transport parameters
    cases h
    exact ⟨.quicTransportParameters payload, Ext.id_of_ofId hid, trivial,
      (List.append_nil _).symm, fun _ => rfl, rfl⟩
  case h_10 =>
    cases h
    exact ⟨.other id payload hid, rfl, trivial, (List.append_nil _).symm, fun _ => rfl, rfl⟩
  all_goals
    obtain ⟨⟨values, rest⟩, hlist, hnext⟩ := bind_eq_ok.mp h
    cases hnext
  case h_1 =>
    obtain ⟨-, hpayload⟩ := (listIn_u16List_eq_ok lengthPrefixedU16_eq_ok).mp hlist
    exact ⟨.supportedGroups values, Ext.id_of_ofId hid, trivial, hpayload, False.elim, rfl⟩
  case h_2 =>
    obtain ⟨hshort, hpayload⟩ := (listIn_u16List_eq_ok lengthPrefixedU8_eq_ok).mp hlist
    exact ⟨.supportedVersions values, Ext.id_of_ofId hid, hshort, hpayload, False.elim, rfl⟩
  case h_3 =>
    obtain ⟨-, hpayload⟩ := (listIn_u16List_eq_ok lengthPrefixedU16_eq_ok).mp hlist
    exact ⟨.signatureAlgorithms values, Ext.id_of_ofId hid, trivial, hpayload, False.elim, rfl⟩
  case h_4 =>
    obtain ⟨hshort, hpayload⟩ := (listIn_ok_eq_ok lengthPrefixedU8_eq_ok).mp hlist
    exact ⟨.ecPointFormats values, Ext.id_of_ofId hid, hshort, hpayload, False.elim, rfl⟩
  case h_5 =>
    obtain ⟨hshort, hpayload⟩ := (listIn_ok_eq_ok lengthPrefixedU8_eq_ok).mp hlist
    exact ⟨.pskKeyExchangeModes values, Ext.id_of_ofId hid, hshort, hpayload, False.elim, rfl⟩
  case h_6 =>
    obtain ⟨hshort, hpayload⟩ := (listIn_u16List_eq_ok lengthPrefixedU8_eq_ok).mp hlist
    exact ⟨.compressCertificate values, Ext.id_of_ofId hid, hshort, hpayload, False.elim, rfl⟩
  case h_7 =>
    obtain ⟨entries, hvalues, -, hpayload⟩ :=
      (listIn_drain_eq_ok lengthPrefixedU16_eq_ok takes_readKeyShare).mp hlist
    refine ⟨.keyShare entries, Ext.id_of_ofId hid, trivial, hpayload, False.elim, ?_⟩
    rw [Content.note, hvalues]
  case h_8 =>
    obtain ⟨names, hvalues, -, hpayload⟩ :=
      (listIn_drain_eq_ok lengthPrefixedU16_eq_ok takes_readName).mp hlist
    refine ⟨.alpn names, Ext.id_of_ofId hid, trivial, hpayload, False.elim, ?_⟩
    rw [Content.note, hvalues]

/-- An extension is read from its payload, whatever follows its list. -/
theorem readExtension_payload (content : Content) (hshort : content.Short)
    (hlength : content.payload.length < 65536) (hwhole : content.IsWhole → left = []) :
    readExtension observed content.id (content.payload ++ left) =
      .ok (content.note observed, left) := by
  have hlist : ∀ {list : Bytes}, (vector 2 list).length < 65536 → list.length < 65536 := by
    intro list h
    rw [length_vector] at h
    omega
  cases content with
  | quicTransportParameters body =>
    rw [hwhole trivial, readExtension, Content.id, Ext.ofId_id, List.append_nil]
    rfl
  | other id payload unknown =>
    rw [hwhole trivial, readExtension, Content.id, unknown, List.append_nil]
    rfl
  | supportedGroups values | signatureAlgorithms values =>
    rw [readExtension, Content.id, Ext.ofId_id]
    refine bind_eq_ok.mpr ⟨(values, left), ?_, rfl⟩
    exact (listIn_u16List_eq_ok lengthPrefixedU16_eq_ok).mpr ⟨hlist hlength, rfl⟩
  | supportedVersions values | compressCertificate values =>
    rw [readExtension, Content.id, Ext.ofId_id]
    refine bind_eq_ok.mpr ⟨(values, left), ?_, rfl⟩
    exact (listIn_u16List_eq_ok lengthPrefixedU8_eq_ok).mpr ⟨hshort, rfl⟩
  | ecPointFormats values | pskKeyExchangeModes values =>
    rw [readExtension, Content.id, Ext.ofId_id]
    refine bind_eq_ok.mpr ⟨(values, left), ?_, rfl⟩
    exact (listIn_ok_eq_ok lengthPrefixedU8_eq_ok).mpr ⟨hshort, rfl⟩
  | keyShare entries =>
    rw [readExtension, Content.id, Ext.ofId_id]
    refine bind_eq_ok.mpr ⟨(_, left), ?_, rfl⟩
    exact (listIn_drain_eq_ok lengthPrefixedU16_eq_ok takes_readKeyShare).mpr
      ⟨entries, rfl, hlist hlength, rfl⟩
  | alpn names =>
    rw [readExtension, Content.id, Ext.ofId_id]
    refine bind_eq_ok.mpr ⟨(_, left), ?_, rfl⟩
    exact (listIn_drain_eq_ok lengthPrefixedU16_eq_ok takes_readName).mpr
      ⟨names, rfl, hlist hlength, rfl⟩

end ReadExtension

/-! ## Reading the extensions -/

/-- An extension that can be written. -/
structure Extension where
  content : Content
  short : content.Short
  length_lt : content.payload.length < 65536

def Extension.bytes (extension : Extension) : Bytes :=
  u16Bytes extension.content.id ++ vector 2 extension.content.payload

/-- An extension as it may lie in the block, with bytes behind its list. -/
structure Laid where
  content : Content
  behind : Bytes
  short : content.Short
  whole : content.IsWhole → behind = []
  length_lt : (content.payload ++ behind).length < 65536

def Laid.bytes (laid : Laid) : Bytes :=
  u16Bytes laid.content.id ++ vector 2 (laid.content.payload ++ laid.behind)

/-- An extension with nothing behind its list. -/
def Extension.laid (extension : Extension) : Laid where
  content := extension.content
  behind := []
  short := extension.short
  whole _ := rfl
  length_lt := by simpa using extension.length_lt

theorem Extension.bytes_laid (extension : Extension) : extension.laid.bytes = extension.bytes := by
  simp [Laid.bytes, Extension.laid, Extension.bytes]

/-- What a round notes: the code point, and what the extension says. -/
def Content.noteNext (observed : ObservedClientHello) (content : Content) : ObservedClientHello :=
  content.note { observed with extensions := observed.extensions ++ [content.id] }

theorem takes_readNext :
    Takes readNext (fun seen (laid : Laid) =>
      (laid.content.noteNext seen.1, seen.2 ++ laid.behind)) Laid.bytes := by
  constructor
  · intro seen extensions next rest
    rw [readNext, bind_eq_ok]
    constructor
    · intro ⟨⟨id, afterId⟩, hid, h⟩
      obtain ⟨⟨payload, afterPayload⟩, hpayload, h⟩ := bind_eq_ok.mp h
      obtain ⟨⟨observed, left⟩, hread, h⟩ := bind_eq_ok.mp h
      cases h
      obtain ⟨content, rfl, hshort, rfl, hwhole, hobserved⟩ := exists_of_readExtension hread
      obtain ⟨hlength, hafter⟩ := lengthPrefixedU16_eq_ok.mp hpayload
      refine ⟨⟨content, left, hshort, hwhole, hlength⟩, by rw [hobserved]; rfl, ?_⟩
      rw [u16_eq_ok.mp hid, hafter, Laid.bytes, List.append_assoc]
    · intro ⟨laid, hnext, hbytes⟩
      have hlength : laid.content.payload.length < 65536 := by
        have hlt := laid.length_lt
        rw [List.length_append] at hlt
        omega
      rw [Laid.bytes, List.append_assoc] at hbytes
      refine ⟨(laid.content.id, _), u16_eq_ok.mpr hbytes, bind_eq_ok.mpr
        ⟨(laid.content.payload ++ laid.behind, rest), ?_, bind_eq_ok.mpr
          ⟨_, readExtension_payload laid.content laid.short hlength laid.whole, ?_⟩⟩⟩
      · exact lengthPrefixedU16_eq_ok.mpr ⟨laid.length_lt, rfl⟩
      · rw [hnext]
        rfl
  · intro laid hnil
    have hlength := congrArg List.length hnil
    simp [Laid.bytes] at hlength

theorem foldl_laid (items : List Laid) (observed : ObservedClientHello) (unread : Bytes) :
    items.foldl (fun seen (laid : Laid) =>
      (laid.content.noteNext seen.1, seen.2 ++ laid.behind)) (observed, unread) =
      ((items.map Laid.content).foldl Content.noteNext observed,
        unread ++ items.flatMap Laid.behind) := by
  induction items generalizing observed unread with
  | nil => simp
  | cons laid items ih => simp [ih]

/-! ## Reading a ClientHello -/

/-- A ClientHello. Its extensions may be left out altogether. -/
structure ClientHello where
  version : UInt16
  random : Bytes
  sessionId : Bytes
  cipherSuites : List UInt16
  compressionMethods : Bytes
  extensions : Option (List Extension)
  random_length : random.length = 32
  sessionId_length : sessionId.length < 256
  cipherSuites_length : (cipherSuites.flatMap u16Bytes).length < 65536
  compressionMethods_length : compressionMethods.length < 256
  extensions_length : ((extensions.getD []).flatMap Extension.bytes).length < 65536

namespace ClientHello

variable (hello : ClientHello)

/-- What stands before the extensions. -/
def head : Bytes :=
  u16Bytes hello.version ++ (hello.random ++ (vector 1 hello.sessionId ++
    (vector 2 (hello.cipherSuites.flatMap u16Bytes) ++ vector 1 hello.compressionMethods)))

/-- The block of the extensions. -/
def block : Bytes :=
  match hello.extensions with
  | none => []
  | some extensions => vector 2 (extensions.flatMap Extension.bytes)

/-- The handshake message: its type, its length in three bytes, and its body. -/
def bytes : Bytes := Bytes.toBe 1 1 ++ vector 3 (hello.head ++ hello.block)

/-- What the extensions say, in wire order. -/
def contents : List Content := (hello.extensions.getD []).map Extension.content

/-- What is noted of a ClientHello. -/
def noted : ObservedClientHello :=
  hello.contents.foldl Content.noteNext
    { handshakeVersion := hello.version, cipherSuites := hello.cipherSuites }

theorem length_body_lt : (hello.head ++ hello.block).length < 256 ^ 3 := by
  have hrandom := hello.random_length
  have hsession := hello.sessionId_length
  have hciphers := hello.cipherSuites_length
  have hcompression := hello.compressionMethods_length
  have hblock : hello.block.length < 65538 := by
    have hextensions := hello.extensions_length
    rw [block]
    cases hsome : hello.extensions with
    | none => simp
    | some extensions =>
      rw [hsome, Option.getD_some] at hextensions
      simp only [length_vector]
      omega
  simp only [head, List.length_append, length_u16Bytes, length_vector]
  omega

end ClientHello

/-- The serialisation of a ClientHello is read to its last byte. -/
theorem parseUnread_bytes (hello : ClientHello) :
    parseUnread hello.bytes = .ok (hello.noted, []) := by
  rw [parseUnread, ClientHello.bytes]
  refine bind_eq_ok.mpr ⟨(1, vector 3 (hello.head ++ hello.block)), u8_eq_ok.mpr rfl, ?_⟩
  dsimp only
  rw [if_neg (by simp)]
  refine bind_eq_ok.mpr ⟨((hello.head ++ hello.block).length, hello.head ++ hello.block),
    u24_eq_ok.mpr ⟨hello.length_body_lt, rfl⟩, ?_⟩
  refine bind_eq_ok.mpr ⟨(hello.head ++ hello.block, []), take_eq_ok.mpr ⟨rfl, by simp⟩, ?_⟩
  simp only [ClientHello.head, List.append_assoc]
  refine bind_eq_ok.mpr ⟨_, u16_eq_ok.mpr rfl, ?_⟩
  refine bind_eq_ok.mpr ⟨_, take_eq_ok.mpr ⟨hello.random_length, rfl⟩, ?_⟩
  refine bind_eq_ok.mpr ⟨_, lengthPrefixedU8_eq_ok.mpr ⟨hello.sessionId_length, rfl⟩, ?_⟩
  refine bind_eq_ok.mpr ⟨_, lengthPrefixedU16_eq_ok.mpr ⟨hello.cipherSuites_length, rfl⟩, ?_⟩
  refine bind_eq_ok.mpr ⟨_, u16List_eq_ok.mpr rfl, ?_⟩
  refine bind_eq_ok.mpr
    ⟨_, lengthPrefixedU8_eq_ok.mpr ⟨hello.compressionMethods_length, rfl⟩, ?_⟩
  have hlength := hello.extensions_length
  cases hsome : hello.extensions with
  | none => simp [ClientHello.block, ClientHello.noted, ClientHello.contents, hsome]
  | some extensions =>
    rw [hsome, Option.getD_some] at hlength
    have hbytes : extensions.flatMap Extension.bytes =
        (extensions.map Extension.laid).flatMap Laid.bytes := by
      simp [List.flatMap_map, Extension.bytes_laid]
    have hblock : hello.block = vector 2 (extensions.flatMap Extension.bytes) := by
      rw [ClientHello.block, hsome]
    dsimp only
    rw [if_neg (by simp [hblock, vector, Bytes.toBe])]
    refine bind_eq_ok.mpr ⟨(extensions.flatMap Extension.bytes, []),
      lengthPrefixedU16_eq_ok.mpr ⟨hlength, by rw [hblock, List.append_nil]⟩, ?_⟩
    refine bind_eq_ok.mpr ⟨(hello.noted, []), ?_, rfl⟩
    rw [hbytes, Drain.drain_flatMap takes_readNext _ (Nat.le_refl _), foldl_laid]
    simp [ClientHello.noted, ClientHello.contents, hsome, Extension.laid, List.flatMap_map,
      Function.comp_def]

/-- A block that is read to its last byte consists of extensions. -/
theorem exists_of_drain_readNext {observed next : ObservedClientHello} {block : Bytes}
    (h : drain readNext block.length (observed, []) block = .ok (next, [])) :
    ∃ extensions : List Extension, block = extensions.flatMap Extension.bytes := by
  obtain ⟨items, hnext, hblock⟩ := (Drain.drain_eq_ok takes_readNext (Nat.le_refl _)).mp h
  rw [foldl_laid, Prod.mk.injEq, List.nil_append] at hnext
  have hbehind : ∀ laid ∈ items, laid.behind = [] := List.flatMap_eq_nil_iff.mp hnext.2.symm
  clear hnext h
  induction items generalizing block with
  | nil => exact ⟨[], hblock⟩
  | cons laid items ih =>
    obtain ⟨extensions, hrest⟩ := ih rfl fun other hmem =>
      hbehind other (List.mem_cons_of_mem _ hmem)
    have hlast := hbehind laid List.mem_cons_self
    have hlt := laid.length_lt
    rw [hlast, List.append_nil] at hlt
    refine ⟨⟨laid.content, laid.short, hlt⟩ :: extensions, ?_⟩
    rw [hblock, List.flatMap_cons, List.flatMap_cons, hrest, Laid.bytes, hlast, List.append_nil]
    rfl

/-- What is read to its last byte is the serialisation of a ClientHello. -/
theorem exists_of_parseUnread {bytes : Bytes} {observed : ObservedClientHello}
    (h : parseUnread bytes = .ok (observed, [])) : ∃ hello : ClientHello, bytes = hello.bytes := by
  obtain ⟨⟨kind, afterKind⟩, hkind, hrest⟩ := bind_eq_ok.mp h
  clear h
  dsimp only at hrest
  split at hrest
  · cases hrest
  · rename_i hone
    obtain ⟨⟨bodyLen, afterLen⟩, hlen, hrest₁⟩ := bind_eq_ok.mp hrest
    obtain ⟨⟨body, reader⟩, hbody, hrest₂⟩ := bind_eq_ok.mp hrest₁
    obtain ⟨⟨version, afterVersion⟩, hversion, hrest₃⟩ := bind_eq_ok.mp hrest₂
    obtain ⟨⟨random, afterRandom⟩, hrandom, hrest₄⟩ := bind_eq_ok.mp hrest₃
    obtain ⟨⟨sessionId, afterSession⟩, hsession, hrest₅⟩ := bind_eq_ok.mp hrest₄
    obtain ⟨⟨cipherBytes, afterCiphers⟩, hciphers, hrest₆⟩ := bind_eq_ok.mp hrest₅
    obtain ⟨cipherSuites, hsuites, hrest₇⟩ := bind_eq_ok.mp hrest₆
    obtain ⟨⟨compression, afterCompression⟩, hcompression, hlast⟩ := bind_eq_ok.mp hrest₇
    clear hrest hrest₁ hrest₂ hrest₃ hrest₄ hrest₅ hrest₆ hrest₇
    dsimp only at hlen hbody hversion hrandom hsession hciphers hsuites hcompression hlast
    -- what the fields say of the bytes, from the last field to the first
    obtain ⟨hcompressionLen, rfl⟩ := lengthPrefixedU8_eq_ok.mp hcompression
    obtain rfl := u16List_eq_ok.mp hsuites
    obtain ⟨hciphersLen, rfl⟩ := lengthPrefixedU16_eq_ok.mp hciphers
    obtain ⟨hsessionLen, rfl⟩ := lengthPrefixedU8_eq_ok.mp hsession
    obtain ⟨hrandomLen, rfl⟩ := take_eq_ok.mp hrandom
    obtain rfl := u16_eq_ok.mp hversion
    obtain ⟨rfl, rfl⟩ := take_eq_ok.mp hbody
    obtain ⟨-, rfl⟩ := u24_eq_ok.mp hlen
    have hbytes := u8_eq_ok.mp hkind
    rw [not_not.mp hone] at hbytes
    split at hlast
    · rename_i hempty
      cases hlast
      refine ⟨⟨version, random, sessionId, cipherSuites, compression, none, hrandomLen, hsessionLen,
        hciphersLen, hcompressionLen, by simp⟩, ?_⟩
      rw [hbytes, List.isEmpty_iff.mp hempty]
      simp [ClientHello.bytes, ClientHello.head, ClientHello.block, vector]
    · obtain ⟨⟨block, afterBlock⟩, hblock, hlast₁⟩ := bind_eq_ok.mp hlast
      obtain ⟨⟨next, unread⟩, hdrain, hlast₂⟩ := bind_eq_ok.mp hlast₁
      obtain ⟨-, hunread⟩ := Prod.mk.inj (Except.ok.inj hlast₂)
      obtain ⟨⟨rfl, rfl⟩, rfl⟩ : (unread = [] ∧ afterBlock = []) ∧ reader = [] := by
        simpa [List.append_eq_nil_iff, and_assoc] using hunread
      obtain ⟨extensions, rfl⟩ := exists_of_drain_readNext hdrain
      obtain ⟨hblockLen, hafter⟩ := lengthPrefixedU16_eq_ok.mp hblock
      refine ⟨⟨version, random, sessionId, cipherSuites, compression, some extensions, hrandomLen,
        hsessionLen, hciphersLen, hcompressionLen, hblockLen⟩, ?_⟩
      rw [hbytes, hafter]
      simp [ClientHello.bytes, ClientHello.head, ClientHello.block, vector]

/-! ## What is observed -/

namespace Content

def groups? : Content → Option (List UInt16)
  | supportedGroups groups => some groups
  | _ => none

def versions? : Content → Option (List UInt16)
  | supportedVersions versions => some versions
  | _ => none

def schemes? : Content → Option (List UInt16)
  | signatureAlgorithms schemes => some schemes
  | _ => none

def formats? : Content → Option Bytes
  | ecPointFormats formats => some formats
  | _ => none

def modes? : Content → Option Bytes
  | pskKeyExchangeModes modes => some modes
  | _ => none

def algorithms? : Content → Option (List UInt16)
  | compressCertificate algorithms => some algorithms
  | _ => none

def shares? : Content → Option (List UInt16)
  | keyShare entries => some (entries.map KeyShareEntry.group)
  | _ => none

def protocols? : Content → Option (List Bytes)
  | alpn names => some (names.map ProtocolName.name)
  | _ => none

def parameters? : Content → Option Bytes
  | quicTransportParameters body => some body
  | _ => none

end Content

/-- The list that one of the extensions has; none is the empty list. -/
def ClientHello.lists {α : Type} (hello : ClientHello) (list? : Content → Option (List α)) :
    List α :=
  (hello.contents.findSome? list?).getD []

/-- What is observed are the lists of the ClientHello, in wire order. -/
structure Observes (observed : ObservedClientHello) (hello : ClientHello) : Prop where
  handshakeVersion : observed.handshakeVersion = hello.version
  cipherSuites : observed.cipherSuites = hello.cipherSuites
  extensions : observed.extensions = hello.contents.map Content.id
  supportedGroups : observed.supportedGroups = hello.lists Content.groups?
  keyShareGroups : observed.keyShareGroups = hello.lists Content.shares?
  signatureAlgorithms : observed.signatureAlgorithms = hello.lists Content.schemes?
  supportedVersions : observed.supportedVersions = hello.lists Content.versions?
  alpn : ∀ names : List Str, hello.lists Content.protocols? = names.map Bytes.ofStr →
    observed.alpn = names
  pskKeyExchangeModes : observed.pskKeyExchangeModes = hello.lists Content.modes?
  ecPointFormats : observed.ecPointFormats = hello.lists Content.formats?
  certificateCompression : observed.certificateCompression = hello.lists Content.algorithms?
  quicTransportParameters :
    observed.quicTransportParameters = hello.contents.findSome? Content.parameters?

/-- A part of what is observed is what one of the extensions says. For each part this is by cases
on the extension. -/
structure Shows {β : Type} (part : ObservedClientHello → β) (empty : β)
    (pick : Content → Option β) (ext : Ext) : Prop where
  id_eq : ∀ content value, pick content = some value → content.id = ext.id := by
    intro content value h
    cases content <;> cases h <;> rfl
  other : ∀ observed content, pick content = none →
      part (content.noteNext observed) = part observed := by
    intro observed content h
    cases content <;> first | rfl | cases h
  picked : ∀ observed content value, pick content = some value → part observed = empty →
      part (content.noteNext observed) = value := by
    intro observed content value h hempty
    cases content <;> cases h <;> first | rfl | simp [Content.noteNext, Content.note, hempty]

section Shows

variable {β : Type} {part : ObservedClientHello → β} {empty : β} {pick : Content → Option β}
  {ext : Ext} {contents : List Content} {observed : ObservedClientHello}

theorem Shows.foldl_of_none (h : Shows part empty pick ext)
    (hnone : ∀ content ∈ contents, pick content = none) :
    part (contents.foldl Content.noteNext observed) = part observed := by
  induction contents generalizing observed with
  | nil => rfl
  | cons content contents ih =>
    rw [List.forall_mem_cons] at hnone
    rw [List.foldl_cons, ih hnone.2, h.other _ _ hnone.1]

/-- When no extension occurs twice, the one that says it has the word. -/
theorem Shows.foldl (h : Shows part empty pick ext) (hnodup : (contents.map Content.id).Nodup)
    (hempty : part observed = empty) :
    part (contents.foldl Content.noteNext observed) = (contents.findSome? pick).getD empty := by
  induction contents generalizing observed with
  | nil => exact hempty
  | cons content contents ih =>
    rw [List.map_cons, List.nodup_cons] at hnodup
    rw [List.foldl_cons, List.findSome?_cons]
    cases hpick : pick content with
    | none => exact ih hnodup.2 ((h.other _ _ hpick).trans hempty)
    | some value =>
      rw [h.foldl_of_none, h.picked _ _ _ hpick hempty]
      · rfl
      · intro other hmem
        cases hother : pick other with
        | none => rfl
        | some twice =>
          have hid : other.id = content.id :=
            (h.id_eq _ _ hother).trans (h.id_eq _ _ hpick).symm
          exact absurd (hid ▸ List.mem_map_of_mem hmem) hnodup.1

end Shows

theorem extensions_foldl (contents : List Content) (observed : ObservedClientHello) :
    (contents.foldl Content.noteNext observed).extensions =
      observed.extensions ++ contents.map Content.id := by
  induction contents generalizing observed with
  | nil => simp
  | cons content contents ih =>
    have hnext : (content.noteNext observed).extensions = observed.extensions ++ [content.id] := by
      cases content <;> rfl
    rw [List.foldl_cons, ih, hnext, List.map_cons, List.append_assoc, List.singleton_append]

/-- When no extension occurs twice, what is noted is what the ClientHello says. -/
theorem observes_noted {hello : ClientHello} (hnodup : (hello.contents.map Content.id).Nodup) :
    Observes hello.noted hello where
  handshakeVersion :=
    ({} : Shows (·.handshakeVersion) 0 (fun _ => none) .alpn).foldl_of_none fun _ _ => rfl
  cipherSuites :=
    ({} : Shows (·.cipherSuites) [] (fun _ => none) .alpn).foldl_of_none fun _ _ => rfl
  extensions := by
    rw [ClientHello.noted, extensions_foldl, List.nil_append]
  supportedGroups :=
    ({} : Shows (·.supportedGroups) [] Content.groups? .supportedGroups).foldl hnodup rfl
  keyShareGroups :=
    ({} : Shows (·.keyShareGroups) [] Content.shares? .keyShare).foldl hnodup rfl
  signatureAlgorithms :=
    ({} : Shows (·.signatureAlgorithms) [] Content.schemes? .signatureAlgorithms).foldl hnodup rfl
  supportedVersions :=
    ({} : Shows (·.supportedVersions) [] Content.versions? .supportedVersions).foldl hnodup rfl
  alpn names hnames := by
    have hshows : Shows (·.alpn) []
      (Option.map (List.map Utf8.fromUtf8Lossy) ∘ Content.protocols?) .alpn := {}
    have hlossy : hello.noted.alpn =
        (hello.lists Content.protocols?).map Utf8.fromUtf8Lossy := by
      refine (hshows.foldl hnodup rfl).trans ?_
      rw [← List.map_findSome?, ClientHello.lists]
      cases hello.contents.findSome? Content.protocols? <;> rfl
    rw [hlossy, hnames, List.map_map]
    simp [Function.comp_def, Utf8.fromUtf8Lossy_ofStr]
  pskKeyExchangeModes :=
    ({} : Shows (·.pskKeyExchangeModes) [] Content.modes? .pskKeyExchangeModes).foldl hnodup rfl
  ecPointFormats :=
    ({} : Shows (·.ecPointFormats) [] Content.formats? .ecPointFormats).foldl hnodup rfl
  certificateCompression :=
    ({} : Shows (·.certificateCompression) [] Content.algorithms? .compressCertificate).foldl
      hnodup rfl
  quicTransportParameters := by
    have hshows : Shows (·.quicTransportParameters) none
      (Option.map some ∘ Content.parameters?) .quicTransportParameters := {}
    refine (hshows.foldl hnodup rfl).trans ?_
    rw [← List.map_findSome?]
    cases hello.contents.findSome? Content.parameters? <;> rfl

/-- **When the decoding is exact.** The serialisation of a ClientHello without two extensions of one
kind is accepted, and what is observed are its lists in wire order. Of a message that is accepted
every byte has been read if, and only if, it is the serialisation of a ClientHello. -/
theorem parse_exact (bytes : Bytes) :
    (∀ hello : ClientHello, bytes = hello.bytes → (hello.contents.map Content.id).Nodup →
      ∃ observed, parse bytes = .ok observed ∧ Observes observed hello) ∧
    ∀ observed unread, parseUnread bytes = .ok (observed, unread) →
      (unread = [] ↔ ∃ hello : ClientHello, bytes = hello.bytes) := by
  constructor
  · intro hello hbytes hnodup
    refine ⟨hello.noted, ?_, observes_noted hnodup⟩
    rw [hbytes]
    exact bind_eq_ok.mpr ⟨_, parseUnread_bytes hello, rfl⟩
  · intro observed unread hparse
    constructor
    · intro hunread
      rw [hunread] at hparse
      exact exists_of_parseUnread hparse
    · intro ⟨hello, hbytes⟩
      rw [hbytes, parseUnread_bytes] at hparse
      exact (Prod.mk.inj (Except.ok.inj hparse)).2.symm

theorem parse_exact_h3 :
    ∃ (hello : ClientHello) (observed : ObservedClientHello),
      hello.cipherSuites = [0x1301, 0x1303] ∧ parse hello.bytes = .ok observed ∧
      observed.cipherSuites = [0x1301, 0x1303] ∧ observed.supportedVersions = [0x0304] ∧
      observed.alpn = ["h3".toList, "h2".toList] := by
  let hello : ClientHello :=
    ⟨0x0303, List.replicate 32 0, [], [0x1301, 0x1303], [0],
      some [⟨.supportedVersions [0x0304], by simp [Content.Short], by decide⟩,
        ⟨.other 0x0a0a [] (by decide), trivial, by decide⟩,
        ⟨.alpn [⟨[0x68, 0x33], by decide⟩, ⟨[0x68, 0x32], by decide⟩], trivial, by decide⟩],
      by decide, by decide, by decide, by decide, by decide⟩
  obtain ⟨observed, hparse, hobserves⟩ := (parse_exact hello.bytes).1 hello rfl (by decide)
  exact ⟨hello, observed, rfl, hparse, hobserves.cipherSuites, hobserves.supportedVersions,
    hobserves.alpn ["h3".toList, "h2".toList] rfl⟩

/-- A ClientHello for TLS 1.3 with a byte too many behind the list of versions, one behind the
extensions and one behind the body. -/
def padded : Bytes :=
  [1, 0, 0, 52] ++ [3, 3] ++ List.replicate 32 0 ++ [0] ++ [0, 2, 0x13, 0x01] ++ [1, 0] ++
    [0, 8] ++ [0, 0x2b, 0, 4, 2, 3, 4, 7] ++ [8] ++ [9]

theorem padded_accepted :
    ∃ observed, parse padded = .ok observed ∧ observed.supportedVersions = [0x0304] ∧
      parseUnread padded = .ok (observed, [7, 8, 9]) := by
  refine ⟨{ handshakeVersion := 0x0303
            cipherSuites := [0x1301]
            extensions := [0x002b]
            supportedVersions := [0x0304] }, ?_, rfl, ?_⟩
  · decide
  · decide

end Chromulate.H3
