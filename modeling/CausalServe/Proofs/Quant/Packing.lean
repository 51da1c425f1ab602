import CausalServe.Proofs.Quant.Expansion

/-! Codes and their bytes. Packing and unpacking undo each other, in either order and at any length,
and a block that is read back from its own bytes is the block. -/

namespace CausalServe

namespace Encoding

/-! ## Single codes -/

theorem inRange_iff {e : Encoding} {c : Int} :
    e.inRange c = true ↔ e.minCode ≤ c ∧ c ≤ e.maxCode := by
  rw [inRange, Bool.and_eq_true, decide_eq_true_eq, decide_eq_true_eq]

theorem code_byte {c : Int} (h : q8.inRange c = true) : code (byte c) = c := by
  obtain ⟨hlow, hhigh⟩ := inRange_iff.mp h
  simp only [minCode, maxCode] at hlow hhigh
  unfold code byte
  rw [UInt8.toNat_ofNat']
  split <;> omega

theorem byte_code (b : UInt8) : byte (code b) = b := by
  have hb := b.toNat_lt
  unfold code byte
  refine UInt8.toNat_inj.mp ?_
  rw [UInt8.toNat_ofNat']
  split <;> omega

theorem inRange_code (b : UInt8) : q8.inRange (code b) = true := by
  have hb := b.toNat_lt
  rw [inRange_iff]
  unfold code
  simp only [minCode, maxCode]
  split <;> omega

/-- The halves of a byte come out in the order in which they went in. -/
theorem nibbleCodes_of_pair {low high : Int} (hlow : q4.inRange low = true)
    (hhigh : q4.inRange high = true) :
    nibbleCodes (UInt8.ofNat (nibble high * 16 + nibble low)) = [low, high] := by
  rw [inRange_iff] at hlow hhigh
  simp only [minCode, maxCode] at hlow hhigh
  unfold nibbleCodes nibble
  rw [UInt8.toNat_ofNat', List.cons.injEq, List.cons.injEq]
  exact ⟨by omega, by omega, rfl⟩

theorem packNibbles_nibbleCodes (b : UInt8) (rest : List Int) :
    packNibbles (nibbleCodes b ++ rest) = b :: packNibbles rest := by
  have hb := b.toNat_lt
  change UInt8.ofNat (nibble _ * 16 + nibble _) :: packNibbles rest = _
  refine congrArg (· :: packNibbles rest) (UInt8.toNat_inj.mp ?_)
  unfold nibble
  rw [UInt8.toNat_ofNat']
  omega

theorem inRange_of_mem_nibbleCodes {b : UInt8} {c : Int} (h : c ∈ nibbleCodes b) :
    q4.inRange c = true := by
  have hb := b.toNat_lt
  rw [inRange_iff]
  rcases List.mem_pair.mp h with rfl | rfl <;> simp only [minCode, maxCode] <;> omega

/-- Eight more than a nibble's code is a signed byte. -/
theorem toInt_add_eight {c : Int} (h : q4.inRange c = true) :
    (Int8.ofInt c + 8).toInt = c + 8 := by
  rw [inRange_iff] at h
  simp only [minCode, maxCode] at h
  have hcode : (Int8.ofInt c).toInt = c := Int8.toInt_ofInt_of_le (by omega) (by omega)
  rw [Int8.toInt_add, hcode]
  change (c + 8).bmod 256 = c + 8
  exact Int.bmod_eq_of_le (by omega) (by omega)

/-! ## Lists of codes -/

theorem length_packNibbles (codes : List Int) :
    (packNibbles codes).length = (codes.length + 1) / 2 := by
  fun_induction packNibbles codes with
  | case1 => rfl
  | case2 last => simp only [List.length_singleton]
  | case3 low high rest ih =>
    simp only [List.length_cons, ih]
    omega

theorem length_pack (e : Encoding) (codes : List Int) :
    (e.pack codes).length = e.packedLen codes.length := by
  cases e with
  | q8 => exact List.length_map ..
  | q4 => exact length_packNibbles codes

theorem flatMap_packNibbles {codes : List Int} (h : ∀ c ∈ codes, q4.inRange c = true)
    (heven : codes.length % 2 = 0) : (packNibbles codes).flatMap nibbleCodes = codes := by
  fun_induction packNibbles codes with
  | case1 => rfl
  | case2 last => cases heven
  | case3 low high rest ih =>
    obtain ⟨hlow, h⟩ := List.forall_mem_cons.mp h
    obtain ⟨hhigh, hrest⟩ := List.forall_mem_cons.mp h
    have hrest_even : rest.length % 2 = 0 := by
      simp only [List.length_cons] at heven
      omega
    rw [List.flatMap_cons, nibbleCodes_of_pair hlow hhigh, ih hrest hrest_even]
    rfl

theorem unpack_pack (e : Encoding) {codes : List Int} (h : ∀ c ∈ codes, e.inRange c = true)
    (heven : e = .q4 → codes.length % 2 = 0) : e.unpack (e.pack codes) = codes := by
  cases e with
  | q8 =>
    rw [unpack, pack, List.map_map]
    exact (List.map_congr_left fun c hc => code_byte (h c hc)).trans codes.map_id
  | q4 => exact flatMap_packNibbles h (heven rfl)

theorem pack_unpack (e : Encoding) (bytes : List UInt8) : e.pack (e.unpack bytes) = bytes := by
  cases e with
  | q8 =>
    rw [unpack, pack, List.map_map]
    exact (List.map_congr_left fun b _ => byte_code b).trans bytes.map_id
  | q4 =>
    rw [unpack, pack]
    induction bytes with
    | nil => rfl
    | cons b bytes ih => rw [List.flatMap_cons, packNibbles_nibbleCodes, ih]

theorem inRange_of_mem_unpack {e : Encoding} {bytes : List UInt8} {c : Int}
    (h : c ∈ e.unpack bytes) : e.inRange c = true := by
  cases e with
  | q8 =>
    obtain ⟨b, -, rfl⟩ := List.mem_map.mp h
    exact inRange_code b
  | q4 =>
    obtain ⟨b, -, hc⟩ := List.mem_flatMap.mp h
    exact inRange_of_mem_nibbleCodes hc

end Encoding

/-! ## Blocks -/

theorem checkScale_eq_ok {scale : Float32} :
    checkScale scale = .ok () ↔ scale.isFinite = true ∧ ¬ scale < 0 := by
  unfold checkScale
  cases scale.isFinite <;> simp

namespace Block

structure Accepted (b : Block) : Prop where
  scale : checkScale b.scale = .ok ()
  codes : ∀ c ∈ b.codes.toList, b.encoding.inRange c = true

theorem ofParts_eq_ok {e : Encoding} {scale : Float32} {codes : Vector Int blockSize} {b : Block} :
    ofParts e scale codes = .ok b ↔ b = ⟨e, scale, codes⟩ ∧ b.Accepted := by
  unfold ofParts
  rw [bind_eq_ok]
  constructor
  · rintro ⟨_, hscale, h⟩
    split at h
    next => cases h
    next hnone =>
      cases h
      rw [List.find?_eq_none] at hnone
      exact ⟨rfl, hscale, fun c hc => by simpa using hnone c hc⟩
  · rintro ⟨rfl, haccepted⟩
    refine ⟨(), haccepted.scale, ?_⟩
    have hnone : (codes.toList.find? fun c => !e.inRange c) = none := by
      rw [List.find?_eq_none]
      intro c hc
      rw [haccepted.codes c hc]
      exact Bool.false_ne_true
    rw [hnone]
    rfl

/-- The codes of packed bytes, filled up with zeros. -/
def codesOf (e : Encoding) (bytes : List UInt8) : Vector Int blockSize :=
  Vector.ofFn fun i => (e.unpack bytes).getD i 0

theorem toList_codesOf {e : Encoding} {bytes : List UInt8} (h : bytes.length = e.bytesPerBlock) :
    (codesOf e bytes).toList = e.unpack bytes := by
  have hlen := Encoding.length_unpack h
  refine List.ext_getElem ((Vector.length_toList ..).trans hlen.symm) fun i hi hi' => ?_
  simp [codesOf, hi']

theorem length_toBytes (b : Block) : b.toBytes.length = b.encoding.bytesPerBlock := by
  rw [toBytes, Encoding.length_pack, Vector.length_toList]
  cases b.encoding <;> rfl

theorem codesOf_toBytes {b : Block} (h : b.Accepted) : codesOf b.encoding b.toBytes = b.codes := by
  have hunpack : b.encoding.unpack b.toBytes = b.codes.toList := by
    refine b.encoding.unpack_pack h.codes fun _ => ?_
    rw [Vector.length_toList]
    rfl
  exact Vector.toList_inj.mp ((toList_codesOf b.length_toBytes).trans hunpack)

/-- Bytes of the right number are refused for their scale only: whatever they hold is in range. -/
theorem ofBytes_eq_ok {e : Encoding} {scale : Float32} {bytes : List UInt8} {b : Block} :
    ofBytes e scale bytes = .ok b ↔ bytes.length = e.bytesPerBlock ∧ checkScale scale = .ok () ∧
      b = ⟨e, scale, codesOf e bytes⟩ := by
  constructor
  · intro h
    obtain ⟨hlen, h⟩ := ok_of_guard h
    obtain ⟨rfl, haccepted⟩ := ofParts_eq_ok.mp h
    exact ⟨not_not.mp hlen, haccepted.scale, rfl⟩
  · rintro ⟨hlen, hscale, rfl⟩
    unfold ofBytes
    rw [if_neg (not_not.mpr hlen)]
    refine ofParts_eq_ok.mpr ⟨rfl, hscale, fun c hc => ?_⟩
    rw [toList_codesOf hlen] at hc
    exact Encoding.inRange_of_mem_unpack hc

theorem accepted_of_ofBytes {e : Encoding} {scale : Float32} {bytes : List UInt8} {b : Block}
    (h : ofBytes e scale bytes = .ok b) : b.Accepted :=
  (ofParts_eq_ok.mp (ok_of_guard h).2).2

end Block

/-! ## Both directions -/

/-- Packing is one to one between codes in range and bytes, for either encoding and at any length;
nibbles come in pairs. A block that was accepted, from its parts or from bytes, has its bytes in
full, no sum on the way to them leaves the signed bytes, and reading them gives the block back. -/
theorem packing_bijective (e : Encoding) :
    (∀ codes : List Int, (∀ c ∈ codes, e.inRange c = true) → (e = .q4 → Even codes.length) →
      (e.pack codes).length = e.packedLen codes.length ∧ e.unpack (e.pack codes) = codes) ∧
    (∀ bytes : List UInt8, e.pack (e.unpack bytes) = bytes ∧
      ∀ c ∈ e.unpack bytes, e.inRange c = true) ∧
    ∀ b : Block, (∃ scale codes, Block.ofParts e scale codes = .ok b) ∨
        (∃ scale bytes, Block.ofBytes e scale bytes = .ok b) →
      b.toBytes.length = e.bytesPerBlock ∧
      (e = .q4 → ∀ c ∈ b.codes.toList, (Int8.ofInt c + 8).toInt = c + 8) ∧
      Block.ofBytes e b.scale b.toBytes = .ok b := by
  refine ⟨fun codes hrange heven => ⟨e.length_pack codes, ?_⟩,
    fun bytes => ⟨e.pack_unpack bytes, fun c => Encoding.inRange_of_mem_unpack⟩, fun b hb => ?_⟩
  · exact e.unpack_pack hrange fun he => Nat.even_iff.mp (heven he)
  obtain ⟨rfl, haccepted⟩ : b.encoding = e ∧ b.Accepted := by
    rcases hb with ⟨scale, codes, h⟩ | ⟨scale, bytes, h⟩
    · obtain ⟨rfl, haccepted⟩ := Block.ofParts_eq_ok.mp h
      exact ⟨rfl, haccepted⟩
    · have haccepted := Block.accepted_of_ofBytes h
      obtain ⟨-, -, rfl⟩ := Block.ofBytes_eq_ok.mp h
      exact ⟨rfl, haccepted⟩
  refine ⟨b.length_toBytes, fun he c hc => ?_, ?_⟩
  · exact Encoding.toInt_add_eight (he ▸ haccepted.codes c hc)
  · exact Block.ofBytes_eq_ok.mpr ⟨b.length_toBytes, haccepted.scale,
      by rw [Block.codesOf_toBytes haccepted]⟩

theorem least_and_greatest_nibbles :
    let b : Block := ⟨.q4, 0.5, Vector.ofFn fun i => if i.val % 2 = 0 then -8 else 7⟩
    Encoding.q4.pack [-8, 7, 0, -1] = [0xF0, 0x78] ∧
      Encoding.q4.unpack [0xF0, 0x78] = [-8, 7, 0, -1] ∧
      Block.ofParts .q4 0.5 b.codes = .ok b ∧
      Block.ofBytes .q4 0.5 (List.replicate 16 0xF0) = .ok b := by
  intro b
  have hpack : Encoding.q4.pack [-8, 7, 0, -1] = [0xF0, 0x78] := by decide
  have hparts : Block.ofParts .q4 0.5 b.codes = .ok b := by rfl
  have hbytes : b.toBytes = List.replicate 16 0xF0 := by decide
  obtain ⟨hlists, -, hblocks⟩ := packing_bijective .q4
  obtain ⟨-, hunpack⟩ := hlists [-8, 7, 0, -1] (by decide) fun _ => by decide
  obtain ⟨-, -, hread⟩ := hblocks b (.inl ⟨0.5, b.codes, hparts⟩)
  exact ⟨hpack, hpack ▸ hunpack, hparts, hbytes ▸ hread⟩

end CausalServe
