import Reargo.LoadedMemory

/-!
# Readers of several bytes

A memory built block by block is sorted by start address. Reading a range stays in the block
of its first byte, while reading one byte looks its block up: the two agree as long as no
other block serves an address of the range with another byte.
-/
namespace LoadedMemory

open PcodeModel SortedKeys List Option BitVec

def MemoryBlock.startKey (b : MemoryBlock) : ℕ := b.start.toNat

def MemoryBlock.Fits (b : MemoryBlock) : Prop := b.start.toNat + b.size.toNat < 2 ^ 64

inductive Built : Memory → Prop where
  | new (endian : Endian) : Built ⟨[], endian⟩
  | add {m : Memory} {b : MemoryBlock} : Built m → b.Fits → Built (m.addBlock b)

structure Sorted (m : Memory) : Prop where
  ascending : Ascending MemoryBlock.startKey m.blocks
  fits : ∀ b ∈ m.blocks, b.Fits

theorem sorted_addBlock {m : Memory} {b : MemoryBlock} (h : Sorted m) (hb : b.Fits) :
    Sorted (m.addBlock b) := by
  unfold Memory.addBlock
  cases hsearch : binarySearch (fun b : MemoryBlock => b.start.toNat) b.start.toNat m.blocks with
  | ok i =>
    obtain ⟨x, hx, hkey⟩ := binarySearch_ok hsearch
    obtain ⟨hi, rfl⟩ := List.getElem?_eq_some_iff.mp hx
    refine ⟨?_, fun y hy => ?_⟩
    · have hmap : (m.blocks.set i b).map MemoryBlock.startKey =
          m.blocks.map MemoryBlock.startKey := by
        apply ext_getElem (by simp)
        intro j hj _
        by_cases hij : i = j
        · subst hij
          simpa [MemoryBlock.startKey] using hkey.symm
        · simp [getElem_set_ne hij]
      have hasc := pairwise_map.mpr h.ascending
      rw [← hmap] at hasc
      exact pairwise_map.mp hasc
    · rcases mem_or_eq_of_mem_set hy with hy | rfl
      · exact h.fits y hy
      · exact hb
  | error i =>
    obtain ⟨hbelow, habove⟩ := binarySearch_error h.ascending hsearch
    refine ⟨pairwise_append.mpr ⟨h.ascending.sublist (take_sublist _ _), ?_, ?_⟩, fun y hy => ?_⟩
    · exact pairwise_cons.mpr ⟨habove, h.ascending.sublist (drop_sublist _ _)⟩
    · intro x hx y hy
      rcases mem_cons.mp hy with rfl | hy
      · exact hbelow x hx
      · exact (hbelow x hx).trans (habove y hy)
    · rcases mem_append.mp hy with hy | hy
      · exact h.fits y (mem_of_mem_take hy)
      · rcases mem_cons.mp hy with rfl | hy
        · exact hb
        · exact h.fits y (mem_of_mem_drop hy)

theorem Built.sorted {m : Memory} (h : Built m) : Sorted m := by
  induction h with
  | new endian => exact ⟨List.Pairwise.nil, fun b hb => absurd hb not_mem_nil⟩
  | add _ hb ih => exact sorted_addBlock ih hb

theorem contains_iff {b : MemoryBlock} (hb : b.Fits) {a : U64} :
    b.contains a = true ↔ b.start.toNat ≤ a.toNat ∧ a.toNat < b.start.toNat + b.size.toNat := by
  have ha := a.isLt
  unfold MemoryBlock.Fits at hb
  unfold MemoryBlock.contains
  rw [decide_eq_true_eq, le_def, lt_def, toNat_add]
  omega

section Served

variable {m : Memory} {a : U64} {b : MemoryBlock}

theorem lt_start_iff (h : Sorted m) {i : ℕ} (hb : m.blocks[i]? = some b) :
    a < b.start ↔ partitionPoint (fun b => decide (b.start ≤ a)) m.blocks ≤ i := by
  have hpp : partitionPoint (fun b : MemoryBlock => decide (b.start ≤ a)) m.blocks =
      partitionPoint (fun b : MemoryBlock => decide (b.startKey < a.toNat + 1)) m.blocks := by
    congr 1
    funext b
    rw [decide_eq_decide, le_def, Nat.lt_succ_iff]
    rfl
  have hat := h.ascending.at_partitionPoint (a.toNat + 1) hb
  rw [hpp, lt_def]
  unfold MemoryBlock.startKey at hat ⊢
  omega

theorem findBlock_eq_some (h : Sorted m) : m.findBlock a = some b ↔
      b ∈ m.blocks ∧ b.contains a = true ∧ ∀ c ∈ m.blocks, c.start ≤ a → c.start ≤ b.start := by
  unfold Memory.findBlock
  dsimp only
  generalize hp : partitionPoint (fun b : MemoryBlock => decide (b.start ≤ a)) m.blocks = p
  have hlt : ∀ {i : ℕ} {c : MemoryBlock}, m.blocks[i]? = some c → (a < c.start ↔ p ≤ i) :=
    fun hc => hp ▸ lt_start_iff h hc
  constructor
  · intro hfind
    split at hfind
    · cases hfind
    · next hp0 =>
      obtain ⟨hb, hcontains⟩ := filter_eq_some_iff.mp hfind
      refine ⟨mem_of_getElem? hb, hcontains, fun c hc hca => ?_⟩
      obtain ⟨j, hj⟩ := mem_iff_getElem?.mp hc
      have hjp : j < p := by
        by_contra hge
        exact absurd hca (not_le.mpr ((hlt hj).mpr (not_lt.mp hge)))
      rcases Nat.lt_or_eq_of_le (Nat.le_sub_one_of_lt hjp) with hj' | rfl
      · exact le_def.mpr (h.ascending.getElem?_lt hj' hj hb).le
      · rw [some.inj (hj.symm.trans hb)]
  · rintro ⟨hmem, hcontains, hlast⟩
    have hstart : b.start ≤ a := le_def.mpr ((contains_iff (h.fits b hmem)).mp hcontains).1
    obtain ⟨j, hj⟩ := mem_iff_getElem?.mp hmem
    have hjp : j < p := by
      by_contra hge
      exact absurd hstart (not_le.mpr ((hlt hj).mpr (not_lt.mp hge)))
    have hplen : p ≤ m.blocks.length := hp ▸ partitionPoint_le _ _
    have hc := List.getElem?_eq_getElem (show p - 1 < m.blocks.length by omega)
    have hlater : ¬ j < p - 1 := by
      intro hlt'
      have hle : m.blocks[p - 1].start ≤ a := by
        by_contra hnot
        have := (hlt hc).mp (not_le.mp hnot)
        omega
      have hord := h.ascending.getElem?_lt hlt' hj hc
      have hback := le_def.mp (hlast _ (mem_of_getElem? hc) hle)
      exact absurd hord (not_lt.mpr hback)
    obtain rfl : j = p - 1 := by omega
    rw [if_neg (by omega), hj]
    exact filter_eq_some_iff.mpr ⟨rfl, hcontains⟩

def NoStartWithin (m : Memory) (a : U64) (n : ℕ) : Prop :=
  ∀ c ∈ m.blocks, a < c.start → a.toNat + n ≤ c.start.toNat

theorem findBlock_within (h : Sorted m) (hb : m.findBlock a = some b) {i n : ℕ} (hi : i < n)
    (hnone : NoStartWithin m a n) (hend : a.toNat + n ≤ b.start.toNat + b.size.toNat) :
    (a + BitVec.ofNat 64 i).toNat = a.toNat + i ∧ m.findBlock (a + BitVec.ofNat 64 i) = some b := by
  obtain ⟨hmem, hcontains, hlast⟩ := (findBlock_eq_some h).mp hb
  have hfits := h.fits b hmem
  have hin := (contains_iff hfits).mp hcontains
  have hnat : (a + BitVec.ofNat 64 i).toNat = a.toNat + i := by
    unfold MemoryBlock.Fits at hfits
    rw [toNat_add, toNat_ofNat]
    omega
  refine ⟨hnat, (findBlock_eq_some h).mpr ⟨hmem, ?_, fun x hx hxc => hlast x hx ?_⟩⟩
  · rw [contains_iff hfits, hnat]
    omega
  · rw [le_def, hnat] at hxc
    by_contra hnot
    have := hnone x hx (not_le.mp hnot)
    omega

end Served

/-- The place in a block's data of the byte at an address. -/
def MemoryBlock.place (b : MemoryBlock) (a : U64) : ℕ := a.toNat - b.start.toNat

section Ranges

variable {m : Memory} {offset : U64} {b : MemoryBlock} {s data : List Byte} {n : ℕ}

theorem readByte_block (ha : b.start ≤ offset) (hdata : b.data = some data) :
    b.readByte offset = data[b.place offset]? := by
  unfold MemoryBlock.readByte MemoryBlock.index MemoryBlock.place
  rw [hdata, if_neg (not_lt.mpr ha)]
  rfl

theorem readBytes_block (ha : b.start ≤ offset) :
    b.readBytes offset n = some s ↔ ∃ data, b.data = some data ∧
      b.place offset + n ≤ data.length ∧ s = (data.drop (b.place offset)).take n := by
  unfold MemoryBlock.readBytes MemoryBlock.index MemoryBlock.place
  rw [if_neg (not_lt.mpr ha)]
  cases b.data with
  | none => simp
  | some data =>
    simp only [bind_some, some.injEq, exists_eq_left']
    split
    · next hlt => exact ⟨fun he => (by cases he), fun he => absurd he.1 (not_le.mpr hlt)⟩
    · next hle =>
      rw [some.injEq]
      exact ⟨fun he => ⟨not_lt.mp hle, he.symm⟩, fun he => he.2.symm⟩

theorem start_le_of_findBlock (h : Sorted m) (hb : m.findBlock offset = some b) :
    b.start ≤ offset := by
  obtain ⟨hmem, hcontains, -⟩ := (findBlock_eq_some h).mp hb
  exact le_def.mpr ((contains_iff (h.fits b hmem)).mp hcontains).1

theorem readBytes_eq_some (h : Sorted m) :
    m.readBytes offset n = some s ↔ ∃ b data, m.findBlock offset = some b ∧
      b.data = some data ∧ b.place offset + n ≤ data.length ∧
      s = (data.drop (b.place offset)).take n := by
  unfold Memory.readBytes
  constructor
  · intro hread
    obtain ⟨b, hb, hs⟩ := bind_eq_some_iff.mp hread
    obtain ⟨data, hdata⟩ := (readBytes_block (start_le_of_findBlock h hb)).mp hs
    exact ⟨b, data, hb, hdata⟩
  · rintro ⟨b, data, hb, hdata⟩
    rw [hb]
    exact (readBytes_block (start_le_of_findBlock h hb)).mpr ⟨data, hdata⟩

theorem slice_eq_some (h : Sorted m) {len : U64} (hs : m.slice offset len = some s) :
    ∃ b data, m.findBlock offset = some b ∧ b.data = some data ∧
      b.place offset + len.toNat ≤ data.length ∧
      offset.toNat + len.toNat ≤ b.start.toNat + b.size.toNat ∧
      NoStartWithin m offset len.toNat ∧ s = (data.drop (b.place offset)).take len.toNat := by
  unfold Memory.slice at hs
  dsimp only at hs
  generalize hp : partitionPoint (fun b : MemoryBlock => decide (b.start ≤ offset)) m.blocks = p
    at hs
  split at hs
  · cases hs
  · next hp0 =>
    obtain ⟨b, hb, hs⟩ := bind_eq_some_iff.mp hs
    split at hs
    · next hcontains =>
      have hserves : m.findBlock offset = some b := by
        unfold Memory.findBlock
        dsimp only
        rw [hp, if_neg hp0, hb, filter_some, if_pos hcontains]
      obtain ⟨data, hdata, hs⟩ := bind_eq_some_iff.mp hs
      have hfits := h.fits b (mem_of_getElem? hb)
      have hin := (contains_iff hfits).mp hcontains
      have hstart : (offset - b.start).toNat = b.place offset := by
        unfold MemoryBlock.place
        rw [toNat_sub]
        have := offset.isLt
        have := b.start.isLt
        omega
      rw [hstart] at hs
      split at hs
      · cases hs
      · next hstop =>
        have hend : offset.toNat + len.toNat ≤ b.start.toNat + b.size.toNat := by
          unfold MemoryBlock.place at hstop
          omega
        split at hs
        · cases hs
        · next hnext =>
          refine ⟨b, data, hserves, hdata, by omega, hend, fun c hc hlt => ?_,
            (some.inj hs).symm⟩
          -- the next block starts first, and not within the range
          by_cases hlen : 1 < len
          · obtain ⟨j, hj⟩ := mem_iff_getElem?.mp hc
            have hpj : p ≤ j := hp ▸ (lt_start_iff h hj).mp hlt
            have hjlen := (List.getElem?_eq_some_iff.mp hj).1
            have hnextp := List.getElem?_eq_getElem (show p < m.blocks.length by omega)
            have hle : m.blocks[p].start.toNat ≤ c.start.toNat := by
              rcases Nat.lt_or_eq_of_le hpj with hlt' | rfl
              · exact (h.ascending.getElem?_lt hlt' hnextp hj).le
              · rw [Option.some.inj (hnextp.symm.trans hj)]
            have hnot : ¬ m.blocks[p].start < offset + len := by
              intro hlt'
              refine hnext ⟨hlen, ?_⟩
              rw [hnextp]
              exact decide_eq_true hlt'
            unfold MemoryBlock.Fits at hfits
            rw [lt_def, toNat_add] at hnot
            omega
          · rw [lt_def] at hlen hlt
            have hone : (1 : U64).toNat = 1 := rfl
            omega
    · cases hs

end Ranges

def BytesAt (m : Memory) (offset : U64) (s : List Byte) : Prop :=
  ∀ i x, s[i]? = some x → m.readByte (offset + BitVec.ofNat 64 i) = some x

def WithinOne (m : Memory) (address : U64) (n : ℕ) : Prop :=
  ∃ b, ∀ i < n, m.findBlock (address + BitVec.ofNat 64 i) = some b ∧
    (b.readByte (address + BitVec.ofNat 64 i)).isSome

structure ReadersAgree (m : Memory) (offset len : U64) (buf : InstructionBuffer) : Prop where
  slice : ∀ s, m.slice offset len = some s → s.length = len.toNat ∧ BytesAt m offset s
  readBytes : ∀ s, m.readBytes offset len.toNat = some s → s.length = len.toNat ∧ BytesAt m offset s
  bytes : m.bytes offset len = m.readBytes offset len.toNat
  instruction : BytesAt m offset ((m.readInstructionBytes offset buf).2.val.take
    (m.readInstructionBytes offset buf).1)
  longest : IsGreatest {n | n ≤ 15 ∧ WithinOne m offset n} (m.readInstructionBytes offset buf).1

/-- Where the data of a block holds a range, every address of it is served with that byte. -/
def SameBytes (m : Memory) (b : MemoryBlock) (offset : U64) (n : ℕ) : Prop :=
  ∀ data, b.data = some data → b.place offset + n ≤ data.length → ∀ i < n,
    ∃ c, m.findBlock (offset + BitVec.ofNat 64 i) = some c ∧
      c.readByte (offset + BitVec.ofNat 64 i) = data[b.place offset + i]?

/-- The addresses of an instruction in a block: up to 15, up to its end. -/
def MemoryBlock.reach (b : MemoryBlock) (address : U64) : ℕ :=
  min 15 (b.start.toNat + b.size.toNat - address.toNat)

def HoldsInstruction (m : Memory) (b : MemoryBlock) (address : U64) : Prop :=
  NoStartWithin m address (b.reach address) ∧
    ∃ data, b.data = some data ∧ b.place address + b.reach address ≤ data.length

section Agreement

variable {m : Memory} {offset len : U64} {b : MemoryBlock} {data : List Byte} {n : ℕ}
  {buf : InstructionBuffer}

theorem getElem?_range (i : ℕ) : ((data.drop (b.place offset)).take n)[i]? =
      if i < n then data[b.place offset + i]? else none := by
  rw [getElem?_take, getElem?_drop]

theorem length_range (hn : b.place offset + n ≤ data.length) :
    ((data.drop (b.place offset)).take n).length = n := by
  rw [length_take, length_drop]
  omega

theorem bytesAt_within (h : Sorted m) (hb : m.findBlock offset = some b)
    (hdata : b.data = some data) (hnone : NoStartWithin m offset n)
    (hend : offset.toNat + n ≤ b.start.toNat + b.size.toNat) :
    BytesAt m offset ((data.drop (b.place offset)).take n) := by
  intro i x hx
  rw [getElem?_range] at hx
  split at hx
  · next hi =>
    obtain ⟨hnat, hserves⟩ := findBlock_within h hb hi hnone hend
    have hstart := start_le_of_findBlock h hserves
    have hle := le_def.mp (start_le_of_findBlock h hb)
    unfold Memory.readByte
    rw [hserves, bind_some, readByte_block hstart hdata, ← hx]
    unfold MemoryBlock.place
    rw [hnat, Nat.sub_add_comm hle]
  · cases hx

theorem bytesAt_iff (hn : b.place offset + n ≤ data.length) :
    BytesAt m offset ((data.drop (b.place offset)).take n) ↔ ∀ i < n,
      ∃ c, m.findBlock (offset + BitVec.ofNat 64 i) = some c ∧
        c.readByte (offset + BitVec.ofNat 64 i) = data[b.place offset + i]? := by
  have hget : ∀ i < n, ∃ x, data[b.place offset + i]? = some x := fun i hi =>
    ⟨_, List.getElem?_eq_getElem (by omega)⟩
  constructor
  · intro hbytes i hi
    obtain ⟨x, hx⟩ := hget i hi
    have hread := hbytes i x (by rw [getElem?_range, if_pos hi, hx])
    obtain ⟨c, hc, hcx⟩ := bind_eq_some_iff.mp hread
    exact ⟨c, hc, hcx.trans hx.symm⟩
  · intro hserved i x hx
    rw [getElem?_range] at hx
    split at hx
    · next hi =>
      obtain ⟨c, hc, hcx⟩ := hserved i hi
      unfold Memory.readByte
      rw [hc, bind_some, hcx, hx]
    · cases hx

theorem slice_agrees (h : Sorted m) {s : List Byte} (hs : m.slice offset len = some s) :
    (s.length = len.toNat ∧ BytesAt m offset s) ∧ m.readBytes offset len.toNat = some s := by
  obtain ⟨b, data, hb, hdata, hn, hend, hnone, rfl⟩ := slice_eq_some h hs
  exact ⟨⟨length_range hn, bytesAt_within h hb hdata hnone hend⟩,
    (readBytes_eq_some h).mpr ⟨b, data, hb, hdata, hn, rfl⟩⟩

theorem bytes_eq_readBytes (h : Sorted m) : m.bytes offset len = m.readBytes offset len.toNat := by
  unfold Memory.bytes
  cases hs : m.slice offset len with
  | some s => exact (slice_agrees h hs).2.symm
  | none => rfl

theorem readBytes_agrees_iff (h : Sorted m) :
    (∀ s, m.readBytes offset n = some s → s.length = n ∧ BytesAt m offset s) ↔
      ∀ b, m.findBlock offset = some b → SameBytes m b offset n := by
  constructor
  · intro hread b hb data hdata hn
    have hs := (readBytes_eq_some h).mpr ⟨b, data, hb, hdata, hn, rfl⟩
    exact (bytesAt_iff hn).mp (hread _ hs).2
  · intro hsame s hs
    obtain ⟨b, data, hb, hdata, hn, rfl⟩ := (readBytes_eq_some h).mp hs
    exact ⟨length_range hn, (bytesAt_iff hn).mpr (hsame b hb data hdata hn)⟩

theorem fill_take {s : List Byte} (hs : s.length ≤ 15) : (buf.fill s).val.take s.length = s := by
  unfold InstructionBuffer.fill
  dsimp only
  rw [take_take, min_eq_left hs, take_left]

theorem readInstructionBytes_of_block (h : Sorted m) (hb : m.findBlock offset = some b) :
    (m.readInstructionBytes offset buf).1 = b.reach offset ∧ 0 < b.reach offset ∧
      ∀ data, b.data = some data → b.place offset + b.reach offset ≤ data.length →
        (m.readInstructionBytes offset buf).2.val.take (b.reach offset) =
          (data.drop (b.place offset)).take (b.reach offset) := by
  obtain ⟨hmem, hcontains, -⟩ := (findBlock_eq_some h).mp hb
  have hfits := h.fits b hmem
  obtain ⟨hstart, hlt⟩ := (contains_iff hfits).mp hcontains
  have havail : (b.start + b.size - offset).toNat =
      b.start.toNat + b.size.toNat - offset.toNat := by
    unfold MemoryBlock.Fits at hfits
    have := offset.isLt
    rw [toNat_sub, toNat_add]
    omega
  have hlen : min buf.val.length (b.start + b.size - offset).toNat = b.reach offset := by
    unfold MemoryBlock.reach
    rw [buf.property, havail]
  have hpos : 0 < b.reach offset := by
    unfold MemoryBlock.reach
    omega
  unfold Memory.readInstructionBytes
  rw [hb]
  dsimp only
  rw [hlen, if_pos hpos]
  refine ⟨by cases b.readBytes offset (b.reach offset) <;> rfl, hpos, fun data hdata hn => ?_⟩
  have hs := (readBytes_block (le_def.mpr hstart)).mpr ⟨data, hdata, hn, rfl⟩
  have hlength := length_range hn
  rw [hs]
  dsimp only
  nth_rewrite 1 [← hlength]
  refine fill_take ?_
  rw [hlength]
  exact min_le_left _ _

theorem readInstructionBytes_of_none (hb : m.findBlock offset = none) :
    m.readInstructionBytes offset buf = (0, buf) := by
  unfold Memory.readInstructionBytes
  rw [hb]

theorem withinOne_reach_iff (h : Sorted m) (hb : m.findBlock offset = some b) :
    WithinOne m offset (b.reach offset) ↔ HoldsInstruction m b offset := by
  obtain ⟨hmem, hcontains, -⟩ := (findBlock_eq_some h).mp hb
  have hfits := h.fits b hmem
  obtain ⟨hstart, hlt⟩ := (contains_iff hfits).mp hcontains
  have hend : offset.toNat + b.reach offset ≤ b.start.toNat + b.size.toNat := by
    unfold MemoryBlock.reach
    omega
  have hpos : 0 < b.reach offset := by
    unfold MemoryBlock.reach
    omega
  have hnat : ∀ i < b.reach offset, (offset + BitVec.ofNat 64 i).toNat = offset.toNat + i := by
    intro i hi
    unfold MemoryBlock.Fits at hfits
    rw [toNat_add, toNat_ofNat]
    omega
  constructor
  · rintro ⟨c, hc⟩
    obtain rfl : b = c := by
      have hzero := (hc 0 hpos).1
      rw [show offset + BitVec.ofNat 64 0 = offset by simp, hb] at hzero
      exact some.inj hzero
    refine ⟨fun x hx hlt' => ?_, ?_⟩
    · -- another block starting within would serve its start
      by_contra hnot
      rw [lt_def] at hlt'
      have hi : x.start.toNat - offset.toNat < b.reach offset := by omega
      have hserves := (findBlock_eq_some h).mp (hc _ hi).1
      have hle := le_def.mp (hserves.2.2 x hx (le_def.mpr (by rw [hnat _ hi]; omega)))
      omega
    · have hlast' := hc (b.reach offset - 1) (by omega)
      have hn := hnat (b.reach offset - 1) (by omega)
      cases hdata : b.data with
      | none =>
        have hsome := hlast'.2
        unfold MemoryBlock.readByte at hsome
        rw [hdata] at hsome
        cases hsome
      | some data =>
        refine ⟨data, rfl, ?_⟩
        have hsome := hlast'.2
        rw [readByte_block (start_le_of_findBlock h hlast'.1) hdata, isSome_getElem?] at hsome
        unfold MemoryBlock.place at hsome ⊢
        omega
  · rintro ⟨hnone, data, hdata, hn⟩
    refine ⟨b, fun i hi => ?_⟩
    obtain ⟨-, hserves⟩ := findBlock_within h hb hi hnone hend
    refine ⟨hserves, ?_⟩
    rw [readByte_block (start_le_of_findBlock h hserves) hdata, isSome_getElem?]
    unfold MemoryBlock.place at hn ⊢
    rw [hnat i hi]
    omega

theorem longest_iff (h : Sorted m) :
    IsGreatest {n | n ≤ 15 ∧ WithinOne m offset n} (m.readInstructionBytes offset buf).1 ↔
      ∀ b, m.findBlock offset = some b → HoldsInstruction m b offset := by
  have hfirst : ∀ {n c}, (∀ i < n, m.findBlock (offset + BitVec.ofNat 64 i) = some c ∧
      (c.readByte (offset + BitVec.ofNat 64 i)).isSome) → 0 < n → m.findBlock offset = some c := by
    intro n c hc hpos
    have hzero := (hc 0 hpos).1
    rwa [show offset + BitVec.ofNat 64 0 = offset by simp] at hzero
  cases hb : m.findBlock offset with
  | none =>
    rw [readInstructionBytes_of_none hb]
    refine ⟨fun _ b hb' => (by cases hb'), fun _ => ⟨⟨Nat.zero_le _, default, ?_⟩, ?_⟩⟩
    · exact fun i hi => absurd hi (Nat.not_lt_zero i)
    · rintro n ⟨-, c, hc⟩
      by_contra hpos
      have := hfirst hc (not_le.mp hpos)
      rw [hb] at this
      cases this
  | some b =>
    obtain ⟨hcount, hpos, -⟩ := @readInstructionBytes_of_block m offset b buf h hb
    rw [hcount]
    constructor
    · rintro ⟨⟨-, hone⟩, -⟩ c hc
      obtain rfl := some.inj hc
      exact (withinOne_reach_iff h hb).mp hone
    · intro hholds
      refine ⟨⟨min_le_left _ _, (withinOne_reach_iff h hb).mpr (hholds b rfl)⟩, ?_⟩
      rintro n ⟨hn, c, hc⟩
      by_contra hlt
      -- one address more lies past the end of the block
      have hreach : b.reach offset < n := not_le.mp hlt
      have hbc := hfirst hc (by omega)
      rw [hb, some.injEq] at hbc
      subst hbc
      have hpast := (hc (b.reach offset) hreach).1
      obtain ⟨hmem, hcontains, -⟩ := (findBlock_eq_some h).mp hpast
      have hfits := h.fits b hmem
      have hin := (contains_iff hfits).mp hcontains
      have hin' := (contains_iff hfits).mp ((findBlock_eq_some h).mp hb).2.1
      unfold MemoryBlock.Fits at hfits
      unfold MemoryBlock.reach at hin hreach
      rw [toNat_add, toNat_ofNat] at hin
      omega

theorem instruction_agrees (h : Sorted m)
    (hholds : ∀ b, m.findBlock offset = some b → HoldsInstruction m b offset) :
    BytesAt m offset ((m.readInstructionBytes offset buf).2.val.take
      (m.readInstructionBytes offset buf).1) := by
  cases hb : m.findBlock offset with
  | none =>
    rw [readInstructionBytes_of_none hb]
    intro i x hx
    rw [take_zero] at hx
    cases hx
  | some b =>
    obtain ⟨hcount, -, hbytes⟩ := @readInstructionBytes_of_block m offset b buf h hb
    obtain ⟨hnone, data, hdata, hn⟩ := hholds b hb
    obtain ⟨hmem, hcontains, -⟩ := (findBlock_eq_some h).mp hb
    obtain ⟨-, hlt⟩ := (contains_iff (h.fits b hmem)).mp hcontains
    rw [hcount, hbytes data hdata hn]
    refine bytesAt_within h hb hdata hnone ?_
    unfold MemoryBlock.reach
    omega

end Agreement

/-- The readers agree at a place exactly when the block of the first byte holds the
instruction, and every byte it gives for the range is the one its address is served with. -/
theorem readers_agree_iff {m : Memory} (hm : Built m) (offset len : U64) (buf : InstructionBuffer) :
    ReadersAgree m offset len buf ↔ ∀ b, m.findBlock offset = some b →
      SameBytes m b offset len.toNat ∧ HoldsInstruction m b offset := by
  have h := hm.sorted
  constructor
  · intro hagree b hb
    exact ⟨(readBytes_agrees_iff h).mp hagree.readBytes b hb,
      (longest_iff h).mp hagree.longest b hb⟩
  · intro hcond
    have hholds := fun b hb => (hcond b hb).2
    exact
      { slice := fun s hs => (slice_agrees h hs).1
        readBytes := (readBytes_agrees_iff h).mpr fun b hb => (hcond b hb).1
        bytes := bytes_eq_readBytes h
        instruction := instruction_agrees h hholds
        longest := (longest_iff h).mpr hholds }

/-- A block of thirty-two bytes with another one in its second eight. -/
def nestedBlocks : Memory :=
  ((⟨[], .little⟩ : Memory).addBlock ⟨0x1000, 32, 4, some (List.replicate 32 1)⟩).addBlock
    ⟨0x1008, 8, 4, some (List.replicate 8 2)⟩

theorem built_nestedBlocks : Built nestedBlocks :=
  .add (.add (.new .little) (by unfold MemoryBlock.Fits; decide))
    (by unfold MemoryBlock.Fits; decide)

def zeroBuffer : InstructionBuffer := ⟨List.replicate 15 0, rfl⟩

theorem readers_agree_nested : ReadersAgree nestedBlocks 0x1008 4 zeroBuffer := by
  refine (readers_agree_iff built_nestedBlocks 0x1008 4 zeroBuffer).mpr fun b hb => ?_
  obtain rfl : ⟨0x1008, 8, 4, some (replicate 8 2)⟩ = b :=
    some.inj ((by decide : _ = nestedBlocks.findBlock 0x1008).trans hb)
  refine ⟨fun data hdata _ i hi => ?_, (by decide : ∀ c ∈ nestedBlocks.blocks, _), _, rfl, by decide⟩
  obtain rfl := some.inj hdata
  refine ⟨⟨0x1008, 8, 4, some (replicate 8 2)⟩, ?_⟩
  revert i
  decide

/-- Eight bytes read across the start of the inner block are all the outer one's. -/
theorem nested_read_differs : ¬ ∀ m, Built m → ∀ offset len buf, ReadersAgree m offset len buf := by
  intro h
  have hagree := (h nestedBlocks built_nestedBlocks 0x1004 8 zeroBuffer).readBytes
    (replicate 8 1) (by decide)
  have hread := hagree.2 4 1 (by decide)
  exact absurd hread (by decide)

end LoadedMemory
