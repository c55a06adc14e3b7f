import GammaRay.Ntfs

set_option autoImplicit false

/-!
# The search for an attribute

`ntfs_get_attribute` goes from header to header by the lengths they state. On a chain of attributes
it finds the first of the type. On any other bytes nothing keeps it inside the record, or from
standing still.
-/
namespace GammaRay.Ntfs
open Bytes
open Ext4 (Buffer)
open KvStore (ascii)

def HeaderAt (data : Buffer) (p : ℕ) (sah : AttributeHeader) : Prop :=
  (bytesAt data p attributeHeaderSize).map attributeHeaderOf = some sah

instance (data : Buffer) (p : ℕ) (sah : AttributeHeader) : Decidable (HeaderAt data p sah) :=
  inferInstanceAs (Decidable (_ = _))

/-- The type that ends the attributes. -/
def endMarker : ℕ := 0xFFFFFFFF

/-- Attributes with their places, each behind the one before, and the marker behind the last. -/
inductive Chain (data : Buffer) : ℕ → List (ℕ × AttributeHeader) → Prop where
  | last {p : ℕ} {sah : AttributeHeader} (header : HeaderAt data p sah)
      (length : attributeHeaderSize ≤ sah.length)
      (marker : bytesAt data (p + sah.length) 4 = some (leBytes 4 endMarker)) :
      Chain data p [(p, sah)]
  | cons {p : ℕ} {sah next : AttributeHeader} {rest : List (ℕ × AttributeHeader)}
      (header : HeaderAt data p sah) (length : attributeHeaderSize ≤ sah.length)
      (goesOn : next.attributeType ≠ endMarker)
      (tail : Chain data (p + sah.length) ((p + sah.length, next) :: rest)) :
      Chain data p ((p, sah) :: (p + sah.length, next) :: rest)

/-- Bytes are known only where an offset of 64 bits can point. -/
def Addressable (data : Buffer) : Prop := ∀ i, 2 ^ 64 ≤ i → data i = none

section Step

variable {data : Buffer} {type : AttributeType} {p : ℕ} {sah : AttributeHeader}

theorem bytesAt_take {offset m n : ℕ} {bytes : List UInt8} (h : bytesAt data offset n = some bytes)
    (hm : m ≤ n) : bytesAt data offset m = some (bytes.take m) := by
  obtain ⟨hlength, hbytes⟩ := bytesAt_eq_some_iff.mp h
  refine bytesAt_eq_some_iff.mpr ⟨by rw [List.length_take]; omega, fun i hi => ?_⟩
  rw [List.getElem?_take_of_lt hi, hbytes i (by omega)]

/-- The last byte of a block has an address. -/
theorem Addressable.bytesAt_le (hdata : Addressable data) {offset n : ℕ} {bytes : List UInt8}
    (h : bytesAt data offset (n + 1) = some bytes) : offset + n < 2 ^ 64 := by
  obtain ⟨hlength, hbytes⟩ := bytesAt_eq_some_iff.mp h
  by_contra hge
  have hlast := hbytes n n.lt_succ_self
  rw [hdata _ (by omega), List.getElem?_eq_getElem (by omega)] at hlast
  exact absurd hlast nofun

theorem HeaderAt.read (h : HeaderAt data p sah) (hp : p + attributeHeaderSize < 2 ^ 64) :
    readAttributeHeader data p = some (sah, p + attributeHeaderSize) := by
  obtain ⟨bytes, hbytes, rfl⟩ := Option.map_eq_some_iff.mp h
  rw [readAttributeHeader, Loop.bind_of_some hbytes, ← Nat.cast_add, u64_natCast hp]

/-- The first field of a header. -/
theorem HeaderAt.type_bytes (h : HeaderAt data p sah) :
    ∃ next, bytesAt data p 4 = some next ∧ leNat next = sah.attributeType := by
  obtain ⟨bytes, hbytes, rfl⟩ := Option.map_eq_some_iff.mp h
  exact ⟨bytes.take 4, bytesAt_take hbytes (by decide), rfl⟩

theorem getAttributeStep_match (h : HeaderAt data p sah) (htype : sah.attributeType = type.code)
    (hp : p + attributeHeaderSize < 2 ^ 64) :
    getAttributeStep data type p = (deliver data type sah (p + attributeHeaderSize)).map
      fun attr => .inr (attr, p + attributeHeaderSize) := by
  rw [getAttributeStep, Loop.bind_of_some (h.read hp)]
  dsimp only
  rw [if_pos htype]
  exact Option.map_eq_bind.symm

theorem getAttributeStep_other (h : HeaderAt data p sah) (htype : sah.attributeType ≠ type.code)
    (hp : p + attributeHeaderSize < 2 ^ 64) (hnext : p + sah.length < 2 ^ 64) :
    getAttributeStep data type p = (bytesAt data (p + sah.length) 4).map fun next =>
      if leNat next = endMarker then .inr (none, p + sah.length) else .inl (p + sah.length) := by
  have hoffset : u64 ((p + attributeHeaderSize : ℕ) + (sah.length : ℤ) -
      (attributeHeaderSize : ℤ)) = p + sah.length := by
    rw [← u64_natCast hnext]
    congr 1
    push_cast
    ring
  rw [getAttributeStep, Loop.bind_of_some (h.read hp)]
  dsimp only
  rw [if_neg htype, hoffset]
  cases hbytes : bytesAt data (p + sah.length) 4 with
  | none => rfl
  | some next =>
    have hmarker : i32 (leNat next) = -1 ↔ leNat next = endMarker := by
      have hlt := leNat_lt next
      rw [(bytesAt_eq_some_iff.mp hbytes).1] at hlt
      unfold i32 endMarker
      omega
    rw [Loop.bind_of_some rfl, Option.map_some, if_congr hmarker rfl rfl]
    split
    · rfl
    · rfl

end Step

/-! ## Chains -/

section Chain

variable {data : Buffer} {type : AttributeType} {p : ℕ} {attributes : List (ℕ × AttributeHeader)}

/-- Attributes whose search delivers their header. -/
def HeaderDelivered (type : AttributeType) : Prop :=
  type = .data ∨ type = .indexRoot ∨ type = .indexAllocation

theorem HeaderDelivered.deliver (htype : HeaderDelivered type) (sah : AttributeHeader)
    (offset : ℕ) : deliver data type sah offset = some (some (.header sah)) := by
  rcases htype with rfl | rfl | rfl <;> rfl

/-- What the search leaves. -/
def Searched (type : AttributeType) (attributes : List (ℕ × AttributeHeader))
    (r : Option Delivered × ℕ) : Prop :=
  (∀ a, attributes.find? (·.2.attributeType = type.code) = some a →
    r = (some (.header a.2), a.1 + attributeHeaderSize)) ∧
  (attributes.find? (·.2.attributeType = type.code) = none → r.1 = none)

theorem Chain.header {q : ℕ} {sah : AttributeHeader} {rest : List (ℕ × AttributeHeader)}
    (hchain : Chain data p ((q, sah) :: rest)) : HeaderAt data p sah := by
  cases hchain with
  | last header _ _ => exact header
  | cons header _ _ _ => exact header

/-- An attribute of the type is found whatever follows. -/
theorem search_match {sah : AttributeHeader} (htype : HeaderDelivered type)
    (header : HeaderAt data p sah) (hp : p + attributeHeaderSize < 2 ^ 64)
    (hcode : sah.attributeType = type.code) (rest : List (ℕ × AttributeHeader)) :
    ∃ r, Loop.Ends (getAttributeStep data type) p r ∧ Searched type ((p, sah) :: rest) r := by
  refine ⟨_, .leave (by rw [getAttributeStep_match header hcode hp, htype.deliver]; rfl), ?_⟩
  have hfind : ((p, sah) :: rest).find? (·.2.attributeType = type.code) = some (p, sah) :=
    List.find?_cons_of_pos (decide_eq_true hcode)
  rw [Searched, hfind]
  exact ⟨fun a ha => by rw [← Option.some.inj ha], nofun⟩

/-- One of another type is passed over. -/
theorem searched_other {sah : AttributeHeader} {rest : List (ℕ × AttributeHeader)}
    {r : Option Delivered × ℕ} (hcode : sah.attributeType ≠ type.code)
    (h : Searched type rest r) : Searched type ((p, sah) :: rest) r := by
  have hfind : ((p, sah) :: rest).find? (·.2.attributeType = type.code) =
      rest.find? (·.2.attributeType = type.code) :=
    List.find?_cons_of_neg (decide_eq_true_iff.not.mpr hcode)
  rwa [Searched, hfind]

theorem Chain.search (hdata : Addressable data) (hchain : Chain data p attributes)
    (htype : HeaderDelivered type) :
    ∃ r, Loop.Ends (getAttributeStep data type) p r ∧ Searched type attributes r := by
  induction hchain with
  | @last p sah header length marker =>
    have hnext := hdata.bytesAt_le marker
    by_cases hcode : sah.attributeType = type.code
    · exact search_match htype header (by omega) hcode []
    · have hstep := getAttributeStep_other header hcode (by omega) (by omega)
      rw [marker, Option.map_some, leNat_leBytes_of_lt (by decide), if_pos rfl] at hstep
      exact ⟨_, .leave hstep, searched_other hcode ⟨nofun, fun _ => rfl⟩⟩
  | @cons p sah next rest header length goesOn tail ih =>
    obtain ⟨bytes, hbytes, htypeNext⟩ := tail.header.type_bytes
    have hnext := hdata.bytesAt_le hbytes
    by_cases hcode : sah.attributeType = type.code
    · exact search_match htype header (by omega) hcode _
    · have hstep := getAttributeStep_other header hcode (by omega) (by omega)
      rw [hbytes, Option.map_some, htypeNext, if_neg goesOn] at hstep
      obtain ⟨r, hends, hr⟩ := ih
      exact ⟨r, .again hstep hends, searched_other hcode hr⟩

end Chain

theorem getAttribute_iff {data : Buffer} {offset offset' : ℕ} {type : AttributeType}
    {record : FileRecord} (hrecord : readFileRecordHeader data offset = some (record, offset'))
    (hmagic : record.magic = ascii "FILE") {r : Option Delivered × ℕ} :
    GetAttribute data offset type r ↔
      Loop.Ends (getAttributeStep data type) record.offsetFirstAttribute r := by
  constructor
  · rintro ⟨record', o, hread, h⟩
    obtain ⟨rfl, rfl⟩ := Prod.mk.inj (Option.some.inj (hrecord.symm.trans hread))
    rwa [if_pos hmagic] at h
  · intro h
    exact ⟨record, offset', hrecord, by rwa [if_pos hmagic]⟩

/-- The search finds an attribute if there is one, and then the first. -/
theorem getAttribute_first (data : Buffer) (hdata : Addressable data) (offset : ℕ)
    (record : FileRecord) (offset' : ℕ)
    (hrecord : readFileRecordHeader data offset = some (record, offset'))
    (hmagic : record.magic = ascii "FILE") (attributes : List (ℕ × AttributeHeader))
    (hchain : Chain data record.offsetFirstAttribute attributes) (type : AttributeType)
    (htype : type = .data ∨ type = .indexRoot ∨ type = .indexAllocation) :
    ∃ r, GetAttribute data offset type r ∧
      (r.1.isSome ↔ ∃ a ∈ attributes, a.2.attributeType = type.code) ∧
      ∀ a, attributes.find? (·.2.attributeType = type.code) = some a →
        r = (some (.header a.2), a.1 + attributeHeaderSize) := by
  obtain ⟨r, hends, hfound, hmissing⟩ := hchain.search hdata htype
  refine ⟨r, (getAttribute_iff hrecord hmagic).mpr hends, ?_, hfound⟩
  cases hfind : attributes.find? (·.2.attributeType = type.code) with
  | none =>
    rw [hmissing hfind]
    rw [List.find?_eq_none] at hfind
    exact iff_of_false nofun fun ⟨a, ha, hcode⟩ => hfind a ha (decide_eq_true hcode)
  | some a =>
    have hcode := List.find?_some hfind
    rw [hfound a hfind]
    exact iff_of_true rfl ⟨a, List.mem_of_find?_eq_some hfind, of_decide_eq_true hcode⟩

/-- A record with its first attribute at 56. -/
def fileRecord (attributes : List UInt8) : List UInt8 :=
  ascii "FILE" ++ List.replicate 16 0 ++ [56, 0] ++ List.replicate 34 0 ++ attributes

/-- The head of an attribute and as many zeros as its length asks for. -/
def plainAttribute (type : AttributeType) (length : ℕ) : List UInt8 :=
  leBytes 4 type.code ++ leBytes 4 length ++ List.replicate (length - 8) 0

/-- An attribute with the standard information, and the data. -/
def smallRecord : List UInt8 :=
  fileRecord (plainAttribute .standardInformation 24 ++ plainAttribute .data 32 ++
    leBytes 4 endMarker)

def smallBuffer : Buffer := fun i => smallRecord[i]?

def plainHeader (type : AttributeType) (length : ℕ) : AttributeHeader :=
  ⟨type.code, length, 0, 0, 0, 0, 0, 0, 0, 0, 0⟩

theorem smallBuffer_addressable : Addressable smallBuffer := by
  intro i hi
  have hlength : smallRecord.length = 116 := by decide
  exact List.getElem?_eq_none (by omega)

theorem smallBuffer_chain :
    Chain smallBuffer 56
      [(56, plainHeader .standardInformation 24), (80, plainHeader .data 32)] :=
  .cons (by decide) (by decide) (by decide)
    (.last (by decide) (by decide) (by decide))

theorem smallBuffer_data :
    ∃ r, GetAttribute smallBuffer 0 .data r ∧ r = (some (.header (plainHeader .data 32)), 104) := by
  obtain ⟨r, hget, -, hfirst⟩ := getAttribute_first smallBuffer smallBuffer_addressable 0
    ⟨ascii "FILE", 56⟩ 50 (by decide +kernel) rfl _ smallBuffer_chain .data (.inl rfl)
  exact ⟨r, hget, hfirst _ rfl⟩

/-! ## Any bytes -/

section Ends

variable {data : Buffer} {type : AttributeType} {N : ℕ}

/-- What the search needs of a header to get on: it starts inside the record, what is read of it is
there, and it does not have length 0 unless the search ends with it. -/
def Passable (data : Buffer) (type : AttributeType) (N p : ℕ) : Prop :=
  p < N ∧ ∃ sah, HeaderAt data p sah ∧
    if sah.attributeType = type.code then
      ∃ attr, deliver data type sah (p + attributeHeaderSize) = some attr
    else ∃ next, bytesAt data (p + sah.length) 4 = some next ∧
      (leNat next = endMarker ∨ 0 < sah.length)

theorem HeaderAt.length_lt {p : ℕ} {sah : AttributeHeader} (h : HeaderAt data p sah) :
    sah.length < 2 ^ 32 := by
  obtain ⟨bytes, hbytes, rfl⟩ := Option.map_eq_some_iff.mp h
  have hlt := leNat_lt ((bytes.drop 4).take 4)
  have hwidth : 256 ^ ((bytes.drop 4).take 4).length ≤ 256 ^ 4 :=
    Nat.pow_le_pow_right (by decide) (List.length_take_le 4 _)
  exact lt_of_lt_of_le hlt hwidth

/-- At a header that can be passed the search ends or moves up. -/
theorem Passable.step {p : ℕ} (hN : N ≤ 2 ^ 63) (h : Passable data type N p) :
    (∃ r, getAttributeStep data type p = some (.inr r)) ∨
      ∃ q, getAttributeStep data type p = some (.inl q) ∧ p < q := by
  obtain ⟨hp, sah, header, hsah⟩ := h
  have hlength := header.length_lt
  have hsize : attributeHeaderSize < 2 ^ 32 := by decide
  split at hsah
  · next hcode =>
    obtain ⟨attr, hattr⟩ := hsah
    refine .inl ⟨(attr, p + attributeHeaderSize), ?_⟩
    rw [getAttributeStep_match header hcode (by omega), hattr, Option.map_some]
  · next hcode =>
    obtain ⟨next, hnext, hlast⟩ := hsah
    have hstep := getAttributeStep_other header hcode (by omega) (by omega)
    rw [hnext, Option.map_some] at hstep
    split at hstep
    · exact .inl ⟨_, hstep⟩
    · next hmarker => exact .inr ⟨_, hstep, by have := hlast.resolve_left hmarker; omega⟩

/-- A search that ends can pass the header it is at. -/
theorem passable_of_ends {p : ℕ} {r : Option Delivered × ℕ} (hN : N ≤ 2 ^ 63) (hp : p < N)
    (h : Loop.Ends (getAttributeStep data type) p r) : Passable data type N p := by
  have hsize : attributeHeaderSize < 2 ^ 32 := by decide
  have hsome : getAttributeStep data type p ≠ none := fun hnone => Loop.not_ends_of_none hnone h
  cases hbytes : bytesAt data p attributeHeaderSize with
  | none =>
    rw [getAttributeStep, readAttributeHeader, Loop.bind_of_none hbytes] at hsome
    exact absurd rfl hsome
  | some bytes =>
    have header : HeaderAt data p (attributeHeaderOf bytes) := by rw [HeaderAt, hbytes]; rfl
    have hlength := header.length_lt
    refine ⟨hp, _, header, ?_⟩
    split
    · next hcode =>
      rw [getAttributeStep_match header hcode (by omega), Option.ne_none_iff_isSome,
        Option.isSome_map] at hsome
      exact Option.isSome_iff_exists.mp hsome
    · next hcode =>
      have hstep := getAttributeStep_other header hcode (by omega) (by omega)
      cases hnext : bytesAt data (p + (attributeHeaderOf bytes).length) 4 with
      | none =>
        rw [hnext] at hstep
        exact absurd hstep hsome
      | some next =>
        refine ⟨next, rfl, ?_⟩
        by_contra hstuck
        obtain ⟨hmarker, hzero⟩ := not_or.mp hstuck
        rw [hnext, Option.map_some, if_neg hmarker, Nat.eq_zero_of_not_pos hzero] at hstep
        exact Loop.not_ends_of_trap (· = p) (fun q hq => ⟨p, hq ▸ hstep, rfl⟩) rfl h

/-- The search ends inside the record if every header it comes to can be passed. -/
theorem getAttribute_ends_iff (data : Buffer) (type : AttributeType) (N : ℕ) (hN : N ≤ 2 ^ 63)
    (offset : ℕ) (record : FileRecord) (offset' : ℕ)
    (hrecord : readFileRecordHeader data offset = some (record, offset'))
    (hmagic : record.magic = ascii "FILE") :
    ((∃ r, GetAttribute data offset type r) ∧
        ∀ p, Loop.Leads (getAttributeStep data type) record.offsetFirstAttribute p → p < N) ↔
      ∀ p, Loop.Leads (getAttributeStep data type) record.offsetFirstAttribute p →
        Passable data type N p := by
  simp only [getAttribute_iff hrecord hmagic]
  constructor
  · rintro ⟨⟨r, hends⟩, hinside⟩ p hp
    exact passable_of_ends hN (hinside p hp) (hends.of_leads hp)
  · intro hpass
    refine ⟨(Loop.endsWithin_of_measure (N - ·) le_rfl fun p hp => ?_).ends,
      fun p hp => (hpass p hp).1⟩
    rcases (hpass p hp).step hN with hleave | ⟨q, hq, hlt⟩
    · exact .inl hleave
    · have hqN := (hpass q (hp.next hq)).1
      exact .inr ⟨q, hq, by omega⟩

end Ends

theorem smallBuffer_passable (p : ℕ)
    (hp : Loop.Leads (getAttributeStep smallBuffer .data) 56 p) :
    Passable smallBuffer .data 116 p := by
  have hfirst : getAttributeStep smallBuffer .data 56 = some (.inl 80) := by decide
  have hsecond : getAttributeStep smallBuffer .data 80 =
    some (.inr (some (.header (plainHeader .data 32)), 104)) := by decide
  have hplaces : p = 56 ∨ p = 80 := by
    refine hp.trapped (fun p => p = 56 ∨ p = 80) ?_ (.inl rfl)
    rintro q t (rfl | rfl) ht
    · rw [hfirst, Option.some.injEq, Sum.inl.injEq] at ht
      exact .inr ht.symm
    · rw [hsecond] at ht
      exact absurd ht nofun
  rcases hplaces with rfl | rfl
  · exact ⟨by decide, plainHeader .standardInformation 24, by decide, by
      rw [if_neg (by decide)]
      exact ⟨leBytes 4 0x80, by decide, .inr (by decide)⟩⟩
  · exact ⟨by decide, plainHeader .data 32, by decide, by
      rw [if_pos (by decide)]
      exact ⟨_, rfl⟩⟩

theorem smallBuffer_ends :
    (∃ r, GetAttribute smallBuffer 0 .data r) ∧
      ∀ p, Loop.Leads (getAttributeStep smallBuffer .data) 56 p → p < 116 :=
  (getAttribute_ends_iff smallBuffer .data 116 (by decide) 0 ⟨ascii "FILE", 56⟩ 50
    (by decide +kernel) rfl).mpr smallBuffer_passable

/-- An attribute of length 0 in a record of 1024 bytes. -/
def stuckBuffer : Buffer := fun i =>
  (fileRecord (plainAttribute .standardInformation 0 ++ List.replicate 960 0))[i]?

/-- The search for the data reads the same header for ever. -/
theorem stuckBuffer_never_ends :
    readFileRecordHeader stuckBuffer 0 = some (⟨ascii "FILE", 56⟩, 50) ∧
      ¬ ∃ r, GetAttribute stuckBuffer 0 .data r := by
  have hrecord : readFileRecordHeader stuckBuffer 0 = some (⟨ascii "FILE", 56⟩, 50) := by
    decide +kernel
  have hstep : getAttributeStep stuckBuffer .data 56 = some (.inl 56) := by decide +kernel
  have htrap : ∀ p, p = 56 →
      ∃ q, getAttributeStep stuckBuffer .data p = some (.inl q) ∧ q = 56 := by
    rintro p rfl
    exact ⟨56, hstep, rfl⟩
  refine ⟨hrecord, ?_⟩
  rintro ⟨r, hget⟩
  exact Loop.not_ends_of_trap (· = 56) htrap rfl ((getAttribute_iff hrecord rfl).mp hget)

end GammaRay.Ntfs
