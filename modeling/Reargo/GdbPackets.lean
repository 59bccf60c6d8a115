import Reargo.GdbText
import Reargo.GdbRegisters

/-!
# Packets applied as a whole

What one packet has to leave behind: an answer, no change behind an error, exactly the bytes that
it declares. The conditions under which the stub does so are read off the packet and the image.
-/
namespace GdbStub

open PcodeModel EmulatorMemory List Option

variable {R : Type} (resume : Resume R) (t : EmulatorTarget R)

structure AppliesWhole (packet : Text) : Prop where
  answers : (handle_packet resume t packet).isSome
  refused : ∀ text t', handle_packet resume t packet = some (some text, t') →
    text.head? = some 'E' → t' = t
  writes : ∀ range addr k hex t', packet = 'M' :: (range ++ ':' :: hex) → Range range addr k →
    handle_packet resume t packet = some (some OK, t') →
      ∃ bytes, HexBytes hex bytes ∧ bytes.length = k ∧ t' = { t with state := t'.state } ∧
        t'.state.bytes = PageAccess.stored t.state.bytes .ram addr bytes
  registers : ∀ hex block t', packet = 'G' :: hex → HexBytes hex block →
    block.length = AMD64_REG_BLOCK_LEN → handle_packet resume t packet = some (some OK, t') →
      ∃ text, handle_packet resume t' ['g'] = some (some text, t') ∧ HexBytes text block
  readsBack : ∀ range addr k hex bytes t', packet = 'M' :: (range ++ ':' :: hex) →
    Range range addr k → HexBytes hex bytes →
    handle_packet resume t packet = some (some OK, t') →
      ∃ text, handle_packet resume t' ('m' :: range) = some (some text, t') ∧ HexBytes text bytes

def Resumes (packet : Text) (step : Bool) : Prop :=
  (packet.head? = some 'c' ∧ step = false) ∨ (packet.head? = some 's' ∧ step = true) ∨
    ∃ rest, packet = "vCont;".toList ++ rest ∧ step = decide (rest.head? = some 's')

/-- The text of the bytes fits a string. -/
def Readable (k : ℕ) : Prop := k * 2 ≤ capacity

/-- The bytes of the loaded image, zero where it has none. -/
def image (addr : U64) (k : ℕ) : List Byte :=
  (List.range k).map fun i => (t.memory.readByte (addr + BitVec.ofNat 64 i)).getD 0

/-- What the packet and the target have to be like. -/
structure Regular (packet : Text) : Prop where
  runs : ∀ step, Resumes packet step → (resume t step).isSome
  uncut : ∀ hex, packet = 'G' :: hex → ¬ SplitsChar hex
  flags : ∀ hex block, packet = 'G' :: hex → HexBytes hex block →
    block.length = AMD64_REG_BLOCK_LEN → block.drop 136 = List.replicate 28 0
  reads : ∀ range addr k, packet = 'm' :: range → Range range addr k → Readable k
  data : ∀ range addr k hex, packet = 'M' :: (range ++ ':' :: hex) → Range range addr k →
    ¬ SplitsChar hex ∧ ∀ bytes, HexBytes hex bytes →
      bytes.length = k ∧ Readable k ∧ image t addr k = bytes

variable {addr : U64} {k : ℕ}

theorem read_text (addr : U64) (k : ℕ) :
    (Readable k ∧ (read_memory t addr k).bind hex_encode =
        some ((image t addr k).flatMap hexByte)) ∨
      (¬ Readable k ∧ (read_memory t addr k).bind hex_encode = none) := by
  have length : (image t addr k).length = k := by simp [image]
  by_cases hk : capacity < k
  · refine .inr ⟨fun h => ?_, ?_⟩
    · unfold Readable at h
      omega
    · rw [read_memory, if_pos hk, bind_none]
  have read : read_memory t addr k = some (image t addr k) := by rw [read_memory, if_neg hk, image]
  rw [read, bind_some, hex_encode, length]
  by_cases h : Readable k
  · exact .inl ⟨h, if_neg (not_lt.mpr h)⟩
  · exact .inr ⟨h, if_pos (not_le.mp h)⟩

theorem encode_block (t : EmulatorTarget R) :
    hex_encode (read_registers t) = some ((read_registers t).flatMap hexByte) := by
  have small : ¬ capacity < AMD64_REG_BLOCK_LEN * 2 := by decide
  rw [hex_encode, read_registers_length, if_neg small]

theorem handle_packet_G (hex : Text) :
    handle_packet resume t ('G' :: hex) = handle_write_registers t hex := rfl

theorem handle_packet_m (args : Text) :
    handle_packet resume t ('m' :: args) = handle_read_memory t args := rfl

theorem handle_packet_M (args : Text) :
    handle_packet resume t ('M' :: args) = handle_write_memory t args := rfl

theorem handle_packet_v (rest : Text) :
    handle_packet resume t ('v' :: rest) = handle_v_packet resume t ('v' :: rest) := rfl

theorem handle_packet_g (rest : Text) : handle_packet resume t ('g' :: rest) =
    match hex_encode (read_registers t) with
    | none => none
    | some text => reply t text := rfl

theorem handle_g (rest : Text) : handle_packet resume t ('g' :: rest) =
    some (some ((read_registers t).flatMap hexByte), t) := by
  rw [handle_packet_g, encode_block]
  rfl

theorem handle_m {range : Text} (h : Range range addr k) : handle_packet resume t ('m' :: range) =
      ((read_memory t addr k).bind hex_encode).map fun text => (some text, t) := by
  have small := range_below h
  rw [handle_packet_m, handle_read_memory, parse_range h]
  dsimp only
  rw [BitVec.toNat_ofNat, Nat.mod_eq_of_lt small]
  cases (read_memory t addr k).bind hex_encode <;> rfl

theorem handle_m_refused {args : Text} (h : ∀ addr k, ¬ Range args addr k) :
    handle_packet resume t ('m' :: args) = some (some E01, t) := by
  have none : parse_addr_len args = none := by
    cases hp : parse_addr_len args with
    | none => rfl
    | some p =>
      obtain ⟨k, hk, -⟩ := parse_addr_len_iff.mp hp
      exact absurd hk (h _ _)
  rw [handle_packet_m, handle_read_memory, none]
  rfl

theorem handle_M {range hex : Text} (h : Range range addr k) :
    handle_packet resume t ('M' :: (range ++ ':' :: hex)) = match hex_decode hex with
      | none => none
      | some (some bytes) => some (some OK, write_memory t addr bytes)
      | some none => some (some E01, t) := by
  rw [handle_packet_M, handle_write_memory, split_range h]
  dsimp only
  rw [parse_range h]
  rfl

theorem handle_M_refused {args : Text}
    (h : ∀ range addr k hex, args = range ++ ':' :: hex → ¬ Range range addr k) :
    handle_packet resume t ('M' :: args) = some (some E01, t) := by
  rw [handle_packet_M, handle_write_memory]
  cases hs : split_once ':' args with
  | none => rfl
  | some p =>
    obtain ⟨head, hex⟩ := p
    obtain ⟨hargs, -⟩ := split_once_iff.mp hs
    dsimp only
    cases hp : parse_addr_len head with
    | none => rfl
    | some q =>
      obtain ⟨k, hk, -⟩ := parse_addr_len_iff.mp hp
      exact absurd hk (h _ _ _ _ hargs)

theorem bytes_write_memory (addr : U64) (data : List Byte) :
    (write_memory t addr data).state.bytes =
      PageAccess.stored t.state.bytes .ram addr data := by
  have touched := EmulatorState.access_lawful.byte_getSpaceMut (s := t.state) trivial .ram
  have written : (write_memory t addr data).state.bytes = PageAccess.stored
      (EmulatorState.access.byte (EmulatorState.access.getSpaceMut t.state .ram))
        .ram addr data :=
    (EmulatorState.access_lawful.writeBytes_spec trivial .ram addr data).2
  rw [touched] at written
  exact written

variable {t' : EmulatorTarget R}

theorem accepted_M {range hex : Text} (hr : Range range addr k)
    (h : handle_packet resume t ('M' :: (range ++ ':' :: hex)) = some (some OK, t')) :
    ∃ bytes, HexBytes hex bytes ∧ t' = write_memory t addr bytes := by
  rw [handle_M resume t hr] at h
  rcases hex_decode_cases hex with ⟨bytes, hb, -, hd⟩ | ⟨-, hd⟩ | ⟨-, -, hd⟩
  · rw [hd] at h
    cases h
    exact ⟨bytes, hb, rfl⟩
  · rw [hd] at h
    cases h
  · rw [hd] at h
    cases h

theorem handle_G {hex : Text} {block : List Byte} (h : HexBytes hex block) :
    handle_packet resume t ('G' :: hex) = some (some OK, write_registers t block) := by
  rw [handle_packet_G, handle_write_registers, hex_decode_bytes h]
  rfl

theorem handle_vCont (rest : Text) : handle_packet resume t ("vCont;".toList ++ rest) =
    handle_resume resume t (rest.head? = some 's') := by
  have other : "vCont;".toList ++ rest ≠ "vCont?".toList := by
    intro h
    cases h
  have action : (rest.takeWhile (· ≠ ';')).head? = some 's' ↔ rest.head? = some 's' := by
    cases rest with
    | nil => rfl
    | cons c rest =>
      rw [takeWhile_cons]
      split
      · rfl
      · rename_i hc
        have : c = ';' := by simpa using hc
        subst this
        exact iff_of_false nofun (by simp)
  change handle_v_packet resume t ("vCont;".toList ++ rest) = _
  rw [handle_v_packet, if_neg other, if_pos (by simp)]
  have behind : ("vCont;".toList ++ rest).drop 6 = rest := rfl
  rw [behind]
  simp only [action]

theorem handle_breakpoint_cases (args : Text) (set : Bool) :
    handle_breakpoint t args set = some (some E01, t) ∨
      ∃ t', handle_breakpoint t args set = some (some OK, t') := by
  unfold handle_breakpoint
  split
  · exact .inl rfl
  split
  · exact .inl rfl
  split
  · exact .inr ⟨_, rfl⟩
  · exact .inr ⟨_, rfl⟩

inductive Dispatch (packet : Text) (answer : Handled R) : Prop
  | fixed (text : Option Text) (h : answer = some (text, t))
  | writesRegisters (hex : Text) (hp : packet = 'G' :: hex)
      (h : answer = handle_write_registers t hex)
  | readsMemory (args : Text) (hp : packet = 'm' :: args) (h : answer = handle_read_memory t args)
  | writesMemory (args : Text) (hp : packet = 'M' :: args) (h : answer = handle_write_memory t args)
  | resumes (step : Bool) (hp : Resumes packet step) (h : answer = handle_resume resume t step)
  | breaks (args : Text) (set : Bool) (h : answer = handle_breakpoint t args set)

theorem dispatch_v (rest : Text) :
    Dispatch resume t ('v' :: rest) (handle_packet resume t ('v' :: rest)) := by
  by_cases hv : "vCont;".toList.isPrefixOf ('v' :: rest)
  · obtain ⟨rest', hrest⟩ := isPrefixOf_iff_prefix.mp hv
    rw [← hrest]
    exact .resumes _ (.inr (.inr ⟨rest', rfl, rfl⟩)) (handle_vCont resume t rest')
  · rw [handle_packet_v, handle_v_packet]
    split
    · exact .fixed _ rfl
    · exact .fixed _ rfl

theorem dispatch (packet : Text) : Dispatch resume t packet (handle_packet resume t packet) := by
  unfold handle_packet
  split
  case h_3 rest =>
    rw [encode_block]
    exact .fixed _ rfl
  case h_4 hex => exact .writesRegisters hex rfl rfl
  case h_5 args => exact .readsMemory args rfl rfl
  case h_6 args => exact .writesMemory args rfl rfl
  case h_7 rest => exact .resumes false (.inl ⟨rfl, rfl⟩) rfl
  case h_8 rest => exact .resumes true (.inr (.inl ⟨rfl, rfl⟩)) rfl
  case h_9 args => exact .breaks args true rfl
  case h_10 args => exact .breaks args false rfl
  case h_13 rest => exact dispatch_v resume t rest
  all_goals exact .fixed _ rfl

/-- An error reply never comes with a change. -/
theorem refused_unchanged {packet text : Text}
    (h : handle_packet resume t packet = some (some text, t')) (he : text.head? = some 'E') :
    t' = t := by
  rcases dispatch resume t packet with ⟨_, ha⟩ | ⟨hex, -, ha⟩ | ⟨args, -, ha⟩ | ⟨args, -, ha⟩ |
    ⟨step, -, ha⟩ | ⟨args, set, ha⟩ <;> rw [ha] at h
  · cases h
    rfl
  · rw [handle_write_registers] at h
    split at h
    · cases h
    · cases h
      cases he
    · cases h
      rfl
  · rw [handle_read_memory] at h
    split at h
    · cases h
      rfl
    · split at h
      · cases h
      · cases h
        rfl
  · rw [handle_write_memory] at h
    split at h
    · cases h
      rfl
    split at h
    · cases h
      rfl
    split at h
    · cases h
    · cases h
      cases he
    · cases h
      rfl
  · obtain ⟨r, -, hr⟩ := map_eq_some_iff.mp h
    cases hr
    cases hs : r.1 <;> rw [hs] at he <;> cases he
  · rcases handle_breakpoint_cases t args set with hb | ⟨_, hb⟩
    · rw [hb] at h
      cases h
      rfl
    · rw [hb] at h
      cases h
      cases he

theorem answered {packet : Text} (h : Regular resume t packet) :
    (handle_packet resume t packet).isSome := by
  have decoded {hex : Text} (hs : ¬ SplitsChar hex) : ∃ r, hex_decode hex = some r := by
    rcases hex_decode_cases hex with ⟨bytes, -, -, hd⟩ | ⟨hc, -⟩ | ⟨-, -, hd⟩
    · exact ⟨_, hd⟩
    · exact absurd hc hs
    · exact ⟨_, hd⟩
  rcases dispatch resume t packet with ⟨_, ha⟩ | ⟨hex, rfl, ha⟩ | ⟨args, rfl, -⟩ | ⟨args, rfl, -⟩ |
    ⟨step, hp, ha⟩ | ⟨args, set, ha⟩
  · rw [ha]
    rfl
  · obtain ⟨r, hr⟩ := decoded (h.uncut hex rfl)
    rw [ha, handle_write_registers, hr]
    cases r <;> rfl
  · by_cases hrange : ∃ addr k, Range args addr k
    · obtain ⟨addr, k, hr⟩ := hrange
      rw [handle_m resume t hr, isSome_map]
      rcases read_text t addr k with ⟨-, some⟩ | ⟨no, -⟩
      · rw [some]
        rfl
      · exact absurd (h.reads args addr k rfl hr) no
    · rw [handle_m_refused resume t fun addr k hr => hrange ⟨addr, k, hr⟩]
      rfl
  · by_cases hrange : ∃ range addr k hex, args = range ++ ':' :: hex ∧ Range range addr k
    · obtain ⟨range, addr, k, hex, rfl, hr⟩ := hrange
      obtain ⟨r, hd⟩ := decoded (h.data range addr k hex rfl hr).1
      rw [handle_M resume t hr, hd]
      cases r <;> rfl
    · rw [handle_M_refused resume t fun range addr k hex ha hr => hrange ⟨range, addr, k, hex, ha, hr⟩]
      rfl
  · rw [ha, handle_resume, isSome_map]
    exact h.runs step hp
  · rcases handle_breakpoint_cases t args set with hb | ⟨_, hb⟩
    · rw [ha, hb]
      rfl
    · rw [ha, hb]
      rfl

theorem applies_of_regular {packet : Text} (h : Regular resume t packet) :
    AppliesWhole resume t packet where
  answers := answered resume t h
  refused := fun _ _ => refused_unchanged resume t
  writes := by
    rintro range addr k hex t' rfl hr accepted
    obtain ⟨bytes, hb, rfl⟩ := accepted_M resume t hr accepted
    exact ⟨bytes, hb, ((h.data range addr k hex rfl hr).2 bytes hb).1, rfl,
      bytes_write_memory t addr bytes⟩
  registers := by
    rintro hex block t' rfl hb length accepted
    rw [handle_G resume t hb] at accepted
    cases accepted
    have zero := h.flags hex block rfl hb length
    have back : read_registers (write_registers t block) = block := by
      rw [read_written t (by rw [length]; decide), ← zero, take_append_drop]
    refine ⟨_, handle_g resume _ [], ?_⟩
    rw [back]
    exact hexBytes_encoded block
  readsBack := by
    rintro range addr k hex bytes t' rfl hr hb accepted
    obtain ⟨bytes', -, rfl⟩ := accepted_M resume t hr accepted
    obtain ⟨-, readable, same⟩ := (h.data range addr k hex rfl hr).2 bytes hb
    rcases read_text (write_memory t addr bytes') addr k with ⟨-, text⟩ | ⟨no, -⟩
    · refine ⟨_, ?_, hexBytes_encoded bytes⟩
      rw [handle_m resume _ hr, text, ← same]
      rfl
    · exact absurd readable no

theorem regular_of_applies {packet : Text} (h : AppliesWhole resume t packet) :
    Regular resume t packet where
  runs := by
    intro step hs
    have answers := h.answers
    have resumed (hr : handle_packet resume t packet = handle_resume resume t step) :
        (resume t step).isSome := by
      rw [hr, handle_resume, isSome_map] at answers
      exact answers
    rcases hs with ⟨hc, rfl⟩ | ⟨hc, rfl⟩ | ⟨rest, rfl, rfl⟩
    · obtain ⟨rest, rfl⟩ := head?_eq_some_iff.mp hc
      exact resumed rfl
    · obtain ⟨rest, rfl⟩ := head?_eq_some_iff.mp hc
      exact resumed rfl
    · exact resumed (handle_vCont resume t rest)
  uncut := by
    rintro hex rfl cut
    have answers := h.answers
    rcases hex_decode_cases hex with ⟨-, -, whole, -⟩ | ⟨-, hd⟩ | ⟨-, whole, -⟩
    · exact whole cut
    · rw [handle_packet_G, handle_write_registers, hd] at answers
      cases answers
    · exact whole cut
  flags := by
    rintro hex block rfl hb length
    obtain ⟨text, hg, ht⟩ := h.registers hex block _ rfl hb length (handle_G resume t hb)
    rw [handle_g] at hg
    cases hg
    have same := hexBytes_unique (hexBytes_encoded _) ht
    rw [read_written t (by rw [length]; decide)] at same
    have cut : (block.take 136).length = 136 := by
      rw [length_take, length]
      decide
    calc block.drop 136 = (block.take 136 ++ replicate 28 0).drop 136 := by rw [same]
      _ = replicate 28 0 := drop_left' cut
  reads := by
    rintro range addr k rfl hr
    have answers := h.answers
    rw [handle_m resume t hr, isSome_map] at answers
    rcases read_text t addr k with ⟨readable, -⟩ | ⟨-, none⟩
    · exact readable
    · rw [none] at answers
      cases answers
  data := by
    rintro range addr k hex rfl hr
    have answers := h.answers
    constructor
    · intro cut
      rcases hex_decode_cases hex with ⟨-, -, whole, -⟩ | ⟨-, hd⟩ | ⟨-, whole, -⟩
      · exact whole cut
      · rw [handle_M resume t hr, hd] at answers
        cases answers
      · exact whole cut
    · intro bytes hb
      have accepted : handle_packet resume t ('M' :: (range ++ ':' :: hex)) =
          some (some OK, write_memory t addr bytes) := by
        rw [handle_M resume t hr, hex_decode_bytes hb]
      obtain ⟨bytes', hb', length, -⟩ := h.writes range addr k hex _ rfl hr accepted
      obtain ⟨text, hm, ht⟩ := h.readsBack range addr k hex bytes _ rfl hr hb accepted
      rw [handle_m resume _ hr] at hm
      rcases read_text (write_memory t addr bytes) addr k with ⟨readable, some⟩ | ⟨-, none⟩
      · rw [some] at hm
        cases hm
        exact ⟨by rw [hexBytes_unique hb hb', length], readable,
          hexBytes_unique (hexBytes_encoded _) ht⟩
      · rw [none] at hm
        cases hm

/-- The stub applies a packet as a whole exactly if the packet and the target are regular. -/
theorem applies_whole_iff_regular (packet : Text) :
    AppliesWhole resume t packet ↔ Regular resume t packet :=
  ⟨regular_of_applies resume t, applies_of_regular resume t⟩

def restingTarget : EmulatorTarget Unit := ⟨EmulatorState.new, ⟨[], .little⟩, 0, [], ()⟩

def trapping : Resume Unit := fun t _ => some (.trap, t)

/-- A write of registers whose text has a character of two bytes in it is not answered. -/
theorem cut_character_panics :
    ¬ AppliesWhole trapping restingTarget ['G', 'a', Char.ofNat 0xE9, 'b'] := by
  intro h
  have cut : SplitsChar ['a', Char.ofNat 0xE9, 'b'] :=
    ⟨by decide, .here (.inr ⟨'a', Char.ofNat 0xE9, ['b'], rfl, by decide, by decide⟩)⟩
  exact (regular_of_applies trapping restingTarget h).uncut _ rfl cut

end GdbStub
