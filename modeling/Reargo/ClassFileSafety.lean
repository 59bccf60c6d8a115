import Reargo.Bytecode

/-!
# Class files cannot stop the reader

The layout of a constant pool in the bytes of a file, and what the parser makes of it: the entries
stand one behind the other and each is read once. A wide constant in the last slot and method
handles that refer to each other in a circle are the two shapes that go wrong.
-/
namespace ClassFiles

open PcodeModel ModifiedUtf8 Bytecode List

structure Entry where
  index : ℕ
  start : ℕ
  stop : ℕ
  constant : Constant

def Entry.slots (e : Entry) : List Constant :=
  if e.constant.wide then [e.constant, .unusable] else [e.constant]

/-- Entries one behind the other, from an index and a position on to the pool's count. -/
def Consecutive (data : List Byte) (count : ℕ) : ℕ → ℕ → List Entry → Prop
  | i, _, [] => count ≤ i
  | i, pos, e :: es => i < count ∧ e.index = i ∧ e.start = pos ∧ e.start < e.stop ∧
      readEntry i ⟨data, pos⟩ = .ok (e.constant, ⟨data, e.stop⟩) ∧
      Consecutive data count (i + e.slots.length) e.stop es

/-- The position behind the entries. -/
def stopOf (pos : ℕ) : List Entry → ℕ
  | [] => pos
  | e :: es => stopOf e.stop es

structure PoolLayout (data : List Byte) where
  minor : U16
  major : U16
  count : U16
  entries : List Entry
  header : data.take 10 = be32 0xCAFEBABE ++ (be16 minor ++ (be16 major ++ be16 count))
  consecutive : Consecutive data count.toNat 1 10 entries

namespace PoolLayout

variable {data : List Byte}

def slots (p : PoolLayout data) : List Constant := .unusable :: p.entries.flatMap Entry.slots

def Overhangs (p : PoolLayout data) : Prop :=
  ∃ e ∈ p.entries, e.constant.wide ∧ e.index + 1 = p.count.toNat

/-- What stands behind the pool is read to its end. -/
def BodyReads (p : PoolLayout data) : Prop :=
  ∃ x, parseBody p.minor p.major p.slots ⟨data, stopOf 10 p.entries⟩ = .ok x

end PoolLayout

def Refers (pool : List Constant) (i j : U16) : Prop :=
  ∃ kind, constant pool i = some (.methodHandle kind j)

theorem slots_length (e : Entry) : e.slots.length = if e.constant.wide then 2 else 1 := by
  unfold Entry.slots
  split <;> rfl

theorem safe_readConstant (tag : Byte) (i : ℕ) : Safe (readConstant tag i) := by
  unfold readConstant
  split
  · exact safe_u16.bind fun len => (safe_bytes len.toNat).bind fun _ => .pure _
  all_goals first
    | exact .fail _
    | exact safe_u16.bind fun _ => .pure _
    | exact safe_u32.bind fun _ => .pure _
    | exact safe_u64.bind fun _ => .pure _
    | exact safe_u16.bind fun _ => safe_u16.bind fun _ => .pure _
    | exact safe_u8.bind fun _ => safe_u16.bind fun _ => .pure _

theorem safe_readEntry (i : ℕ) : Safe (readEntry i) :=
  safe_u8.bind fun tag => safe_readConstant tag i

/-- An entry with an index that would take the counter past 16 bits. -/
def Overflows (es : List Entry) : Prop := ∃ e ∈ es, e.constant.wide ∧ 2 ^ 16 ≤ e.index + 2

instance (es : List Entry) : Decidable (Overflows es) :=
  inferInstanceAs (Decidable (∃ e ∈ es, e.constant.wide ∧ 2 ^ 16 ≤ e.index + 2))

theorem overflows_cons (e : Entry) (es : List Entry) :
    Overflows (e :: es) ↔ (e.constant.wide ∧ 2 ^ 16 ≤ e.index + 2) ∨ Overflows es := by
  simp [Overflows]

theorem increment_run (i : ℕ) (r : Reader) :
    increment i r = if i + 1 < 2 ^ 16 then .ok (i + 1, r) else .error .overflow := by
  unfold increment
  split <;> rfl

theorem parseSlots_step {count i : ℕ} {r r' : Reader} {c : Constant} (hi : i < count)
    (hc : readEntry i r = .ok (c, r')) (hcount : count < 2 ^ 16) :
    parseSlots count i r = if c.wide then
        if i + 2 < 2 ^ 16 then
          (do return c :: .unusable :: (← parseSlots count (i + 2)) : ReadM (List Constant)) r'
        else .error .overflow
      else (do return c :: (← parseSlots count (i + 1)) : ReadM (List Constant)) r' := by
  have first : i + 1 < 2 ^ 16 := by omega
  rw [parseSlots, dif_pos hi, bind_run, hc]
  dsimp only
  rw [bind_run, increment_run, if_pos first]
  dsimp only
  split
  · rw [bind_run, increment_run]
    by_cases second : i + 2 < 2 ^ 16
    · rw [if_pos second, if_pos second]
    · rw [if_neg second, if_neg second]
  · rfl

theorem parseSlots_done {count i : ℕ} (hi : count ≤ i) (r : Reader) :
    parseSlots count i r = .ok ([], r) := by
  rw [parseSlots, dif_neg (by omega)]
  rfl

variable {data : List Byte} {α : Type} {es : List Entry}

/-- The loop over a pool that is laid out. -/
theorem parseSlots_consecutive {count : ℕ} (hcount : count < 2 ^ 16)
    {i pos : ℕ} (h : Consecutive data count i pos es) :
    parseSlots count i ⟨data, pos⟩ = if Overflows es then .error .overflow
      else .ok (es.flatMap Entry.slots, ⟨data, stopOf pos es⟩) := by
  induction es generalizing i pos with
  | nil =>
    rw [parseSlots_done h, if_neg (by simp [Overflows])]
    rfl
  | cons e es ih =>
    obtain ⟨hi, rfl, rfl, -, hread, hrest⟩ := h
    have rest := ih hrest
    rw [parseSlots_step hi hread hcount]
    rw [slots_length] at rest
    by_cases hw : e.constant.wide
    · rw [if_pos hw] at rest ⊢
      by_cases ho : e.index + 2 < 2 ^ 16
      · have same : Overflows (e :: es) ↔ Overflows es := by
          rw [overflows_cons]
          exact or_iff_right (fun h => absurd h.2 (by omega))
        rw [if_pos ho, bind_run, rest]
        simp only [same]
        by_cases hes : Overflows es
        · rw [if_pos hes, if_pos hes]
        · rw [if_neg hes, if_neg hes, flatMap_cons, Entry.slots, if_pos hw]
          rfl
      · rw [if_neg ho, if_pos ((overflows_cons e es).mpr (.inl ⟨hw, by omega⟩))]
    · have same : Overflows (e :: es) ↔ Overflows es := by
        rw [overflows_cons]
        exact or_iff_right (fun h => hw h.1)
      rw [if_neg hw] at rest ⊢
      rw [bind_run, rest]
      simp only [same]
      by_cases hes : Overflows es
      · rw [if_pos hes, if_pos hes]
      · rw [if_neg hes, if_neg hes, flatMap_cons, Entry.slots, if_neg hw]
        rfl

theorem laid_out_or_error (data : List Byte) {count : ℕ} (hcount : count < 2 ^ 16) (i pos : ℕ) :
    (∃ es, Consecutive data count i pos es) ∨
      ∃ e, parseSlots count i ⟨data, pos⟩ = .error (.error e) := by
  induction hn : count - i using Nat.strong_induction_on generalizing i pos with
  | _ n ih =>
  by_cases hi : i < count
  swap
  · exact .inl ⟨[], not_lt.mp hi⟩
  cases hread : readEntry i ⟨data, pos⟩ with
  | error f =>
    obtain ⟨e, rfl⟩ := safe_readEntry i ⟨data, pos⟩ f hread
    refine .inr ⟨e, ?_⟩
    rw [parseSlots, dif_pos hi, bind_run, hread]
  | ok x =>
    obtain ⟨c, d, stop⟩ := x
    obtain ⟨hd, hlt⟩ := advances_readEntry i hread
    cases hd
    have step := parseSlots_step hi hread hcount
    have width := slots_length ⟨i, pos, stop, c⟩
    dsimp only at hlt width
    rcases ih (count - (i + (Entry.slots ⟨i, pos, stop, c⟩).length)) (by split at width <;> omega)
      (i + (Entry.slots ⟨i, pos, stop, c⟩).length) stop rfl with ⟨es, hes⟩ | ⟨e, he⟩
    · exact .inl ⟨⟨i, pos, stop, c⟩ :: es, hi, rfl, rfl, hlt, hread, hes⟩
    rw [width] at he
    by_cases hw : c.wide
    · rw [if_pos hw] at he step
      by_cases ho : i + 2 < 2 ^ 16
      · refine .inr ⟨e, ?_⟩
        rw [step, if_pos ho, bind_run, he]
      · -- the counter is past the pool, so the layout ends here
        refine .inl ⟨[⟨i, pos, stop, c⟩], hi, rfl, rfl, hlt, hread, ?_⟩
        rw [width, if_pos hw]
        exact le_trans (by omega) (not_lt.mp ho)
    · rw [if_neg hw] at he step
      refine .inr ⟨e, ?_⟩
      rw [step, bind_run, he]

theorem index_bounds {count i pos : ℕ}
    (h : Consecutive data count i pos es) : ∀ e ∈ es, e.index < count := by
  induction es generalizing i pos with
  | nil => simp
  | cons e es ih =>
    obtain ⟨hi, rfl, -, -, -, hrest⟩ := h
    intro x hx
    rcases mem_cons.mp hx with rfl | hx
    · exact hi
    · exact ih hrest x hx

theorem consecutive_length {count i pos : ℕ}
    (h : Consecutive data count i pos es) (hi : i ≤ count) :
    (i + (es.flatMap Entry.slots).length = count ∧
        ¬ ∃ e ∈ es, e.constant.wide ∧ e.index + 1 = count) ∨
      (i + (es.flatMap Entry.slots).length = count + 1 ∧
        ∃ e ∈ es, e.constant.wide ∧ e.index + 1 = count) := by
  induction es generalizing i pos with
  | nil =>
    have done : count ≤ i := h
    exact .inl ⟨by simpa using le_antisymm hi done, by simp⟩
  | cons e es ih =>
    obtain ⟨hlt, rfl, rfl, -, -, hrest⟩ := h
    have width := slots_length e
    rw [flatMap_cons, length_append]
    by_cases last : e.constant.wide ∧ e.index + 1 = count
    · rw [if_pos last.1] at width
      have none : es = [] := by
        cases es with
        | nil => rfl
        | cons x xs =>
          have := hrest.1
          omega
      subst none
      refine .inr ⟨?_, e, mem_cons_self, last⟩
      rw [flatMap_nil, length_nil]
      omega
    · have fits : e.index + e.slots.length ≤ count := by
        split at width
        · rename_i hw
          have : e.index + 1 ≠ count := fun h => last ⟨hw, h⟩
          omega
        · omega
      have tail : (∃ x ∈ e :: es, x.constant.wide ∧ x.index + 1 = count) ↔
          ∃ x ∈ es, x.constant.wide ∧ x.index + 1 = count := by
        simp only [mem_cons, exists_eq_or_imp]
        exact or_iff_right last
      rw [tail, ← add_assoc]
      exact ih hrest fits

theorem safe_readAttribute : Safe readAttribute :=
  safe_u16.bind fun _ => safe_u32.bind fun len => (safe_bytes len.toNat).bind fun _ => .pure _

theorem safe_exceptionEntry (pool : List Constant) : Safe (exceptionEntry pool) :=
  safe_u16.bind fun _ => safe_u16.bind fun _ => safe_u16.bind fun _ => safe_u16.bind fun _ =>
    .pure _

theorem safe_codeAttribute (pool : List Constant) : Safe (codeAttribute pool) := by
  refine safe_readAttribute.bind fun x => Safe.ite ?_ (.pure _)
  refine safe_within x.2 (safe_u16.bind fun count => safe_times ?_ count.toNat)
  exact safe_u16.bind fun _ => safe_u16.bind fun _ => .pure _

theorem safe_parseCode (pool : List Constant) : Safe (parseCode pool) :=
  safe_u16.bind fun _ => safe_u16.bind fun _ => safe_u32.bind fun len =>
    (safe_bytes len.toNat).bind fun _ => safe_u16.bind fun n =>
      (safe_times (safe_exceptionEntry pool) n.toNat).bind fun _ => safe_u16.bind fun k =>
        (safe_times (safe_codeAttribute pool) k.toNat).bind fun _ => .pure _

/-- A field that is only read behind a check of the attribute's length. -/
theorem safe_guarded {body : List Byte} (f : U16 → α) (a : α) :
    Safe (if 2 ≤ body.length then return f (← leadingU16 body) else return a) := by
  split
  · rename_i h
    exact (safe_leadingU16 h).bind fun _ => .pure _
  · exact .pure _

theorem safe_memberAttribute (pool : List Constant) (m : Member) :
    Safe (memberAttribute pool m) := by
  apply safe_readAttribute.bind
  rintro ⟨name, body⟩
  dsimp only
  split
  · exact (safe_within body (safe_parseCode pool)).bind fun _ => .pure _
  · exact safe_guarded (fun i => { m with signature := utf8 pool i }) m
  · exact safe_guarded (fun i => { m with constantValue := some i }) m
  · exact .pure _

theorem safe_parseMember (pool : List Constant) : Safe (parseMember pool) :=
  safe_u16.bind fun _ => safe_u16.bind fun _ => safe_u16.bind fun _ => safe_u16.bind fun n =>
    safe_iterate (safe_memberAttribute pool) n.toNat _

theorem safe_classAttribute (cf : ClassFile) : Safe (classAttribute cf) := by
  apply safe_readAttribute.bind
  rintro ⟨name, body⟩
  dsimp only
  split
  · exact safe_guarded (fun i => { cf with sourceFile := utf8 cf.constants i }) cf
  · exact safe_guarded (fun i => { cf with signature := utf8 cf.constants i }) cf
  · exact .pure _

theorem safe_parseBody (minor major : U16) (pool : List Constant) :
    Safe (parseBody minor major pool) :=
  safe_u16.bind fun _ => safe_u16.bind fun _ => safe_u16.bind fun _ => safe_u16.bind fun n =>
    (safe_times (safe_u16.bind fun _ => .pure _) n.toNat).bind fun _ => safe_u16.bind fun k =>
      (safe_times (safe_parseMember pool) k.toNat).bind fun _ => safe_u16.bind fun l =>
        (safe_times (safe_parseMember pool) l.toNat).bind fun _ => safe_u16.bind fun a =>
          safe_iterate safe_classAttribute a.toNat _

/-- Every value a reader can give. -/
def Gives {α : Type} (P : α → Prop) (p : ReadM α) : Prop :=
  ∀ ⦃r a r'⦄, p r = .ok (a, r') → P a

theorem Gives.pure {P : α → Prop} {a : α} (h : P a) : Gives P (pure a : ReadM α) := by
  intro r b r' hb
  cases hb
  exact h

theorem Gives.bind {β : Type} {P : β → Prop} {p : ReadM α} {f : α → ReadM β}
    (h : ∀ a, Gives P (f a)) : Gives P (p >>= f) := by
  intro r b r' hb
  obtain ⟨a, s, -, hb⟩ := bind_ok hb
  exact h a hb

theorem Gives.iterate {P : α → Prop} {p : α → ReadM α}
    (step : ∀ a, P a → Gives P (p a)) (n : ℕ) {a : α} (ha : P a) : Gives P (iterate p n a) := by
  induction n generalizing a with
  | zero => exact .pure ha
  | succ n ih =>
    intro r b r' h
    obtain ⟨c, s, hc, h⟩ := bind_ok h
    exact ih (step a ha hc) h

theorem gives_guarded {P : α → Prop} {body : List Byte} {f : U16 → α} {a : α}
    (hf : ∀ i, P (f i)) (ha : P a) :
    Gives P (if 2 ≤ body.length then return f (← leadingU16 body) else return a) := by
  split
  · exact .bind fun i => .pure (hf i)
  · exact .pure ha

theorem classAttribute_constants (pool : List Constant) (cf : ClassFile)
    (h : cf.constants = pool) : Gives (fun x => x.constants = pool) (classAttribute cf) := by
  apply Gives.bind
  rintro ⟨name, body⟩
  dsimp only
  split
  · exact gives_guarded (P := fun x : ClassFile => x.constants = pool)
      (f := fun i => { cf with sourceFile := utf8 cf.constants i }) (fun _ => h) h
  · exact gives_guarded (P := fun x : ClassFile => x.constants = pool)
      (f := fun i => { cf with signature := utf8 cf.constants i }) (fun _ => h) h
  · exact .pure h

theorem parseBody_constants (minor major : U16) (pool : List Constant) :
    Gives (fun cf => cf.constants = pool) (parseBody minor major pool) :=
  .bind fun _ => .bind fun _ => .bind fun _ => .bind fun _ => .bind fun _ => .bind fun _ =>
    .bind fun _ => .bind fun _ => .bind fun _ => .bind fun _ =>
      .iterate (classAttribute_constants pool) _ rfl

section Layout

variable {data : List Byte} (p : PoolLayout data)

/-- The counter of the loop passes 16 bits. -/
theorem overflows_iff : Overflows p.entries ↔ p.Overhangs ∧ p.count.toNat = 65535 := by
  have bound := p.count.isLt
  constructor
  · rintro ⟨e, he, hw, ho⟩
    have := index_bounds p.consecutive e he
    exact ⟨⟨e, he, hw, by omega⟩, by omega⟩
  · rintro ⟨⟨e, he, hw, hi⟩, hc⟩
    exact ⟨e, he, hw, by omega⟩

/-- The file from its first byte on, up to what stands behind the pool. -/
theorem parseM_layout : parseM ⟨data, 0⟩ = if Overflows p.entries then .error .overflow
    else parseBody p.minor p.major p.slots ⟨data, stopOf 10 p.entries⟩ := by
  have split : data = be32 0xCAFEBABE ++ (be16 p.minor ++ (be16 p.major ++ (be16 p.count ++
      data.drop 10))) := by
    calc data = data.take 10 ++ data.drop 10 := (take_append_drop 10 data).symm
      _ = _ := by simp only [p.header, append_assoc]
  have magic : u32 ⟨data, 0⟩ = .ok (0xCAFEBABE, ⟨data, 4⟩) :=
    (reads_u32 0 0xCAFEBABE).run [] _ split rfl
  have minor : u16 ⟨data, 4⟩ = .ok (p.minor, ⟨data, 6⟩) :=
    (reads_u16 4 p.minor).run (be32 0xCAFEBABE) _ split rfl
  have major : u16 ⟨data, 6⟩ = .ok (p.major, ⟨data, 8⟩) :=
    (reads_u16 6 p.major).run (be32 0xCAFEBABE ++ be16 p.minor) _ split rfl
  have count : u16 ⟨data, 8⟩ = .ok (p.count, ⟨data, 10⟩) :=
    (reads_u16 8 p.count).run (be32 0xCAFEBABE ++ (be16 p.minor ++ be16 p.major)) _ split rfl
  have slots := parseSlots_consecutive p.count.isLt p.consecutive
  unfold parseM
  rw [bind_run, magic]
  dsimp only
  rw [if_neg (by simp), bind_run, minor]
  dsimp only
  rw [bind_run, major]
  dsimp only
  unfold parseConstants
  rw [bind_run, bind_run, count]
  dsimp only
  rw [bind_run, slots]
  by_cases ho : Overflows p.entries
  · simp only [if_pos ho]
  · simp only [if_neg ho]
    rfl

end Layout

theorem layout_or_error (data : List Byte) :
    Nonempty (PoolLayout data) ∨ ∃ e, parseM ⟨data, 0⟩ = .error (.error e) := by
  unfold parseM
  rw [bind_run]
  cases hmagic : u32 ⟨data, 0⟩ with
  | error f =>
    obtain ⟨e, rfl⟩ := safe_u32 _ f hmagic
    exact .inr ⟨e, rfl⟩
  | ok x =>
  obtain ⟨magic, r⟩ := x
  obtain ⟨-, magicAt, rfl⟩ := u32_ok hmagic
  dsimp only
  by_cases hm : magic ≠ 0xCAFEBABE
  · rw [if_pos hm]
    exact .inr ⟨_, rfl⟩
  rw [if_neg hm, bind_run]
  obtain rfl := not_not.mp hm
  cases hminor : u16 ⟨data, 0 + 4⟩ with
  | error f =>
    obtain ⟨e, rfl⟩ := safe_u16 _ f hminor
    exact .inr ⟨e, rfl⟩
  | ok x =>
  obtain ⟨minor, r⟩ := x
  obtain ⟨-, minorAt, rfl⟩ := u16_ok hminor
  dsimp only
  rw [bind_run]
  cases hmajor : u16 ⟨data, 0 + 4 + 2⟩ with
  | error f =>
    obtain ⟨e, rfl⟩ := safe_u16 _ f hmajor
    exact .inr ⟨e, rfl⟩
  | ok x =>
  obtain ⟨major, r⟩ := x
  obtain ⟨-, majorAt, rfl⟩ := u16_ok hmajor
  dsimp only
  unfold parseConstants
  rw [bind_run, bind_run]
  cases hcount : u16 ⟨data, 0 + 4 + 2 + 2⟩ with
  | error f =>
    obtain ⟨e, rfl⟩ := safe_u16 _ f hcount
    exact .inr ⟨e, rfl⟩
  | ok x =>
  obtain ⟨count, r⟩ := x
  obtain ⟨-, countAt, rfl⟩ := u16_ok hcount
  dsimp only
  rcases laid_out_or_error data count.isLt 1 10 with ⟨es, hes⟩ | ⟨e, he⟩
  · have header : data.take 10 = be32 0xCAFEBABE ++ (be16 minor ++ (be16 major ++ be16 count)) := by
      rw [← magicAt, ← minorAt, ← majorAt, ← countAt]
      calc data.take (4 + (2 + (2 + 2)))
        _ = _ := by simp only [take_add, drop_drop]; rfl
    exact .inl ⟨⟨minor, major, count, es, header, hes⟩⟩
  · rw [bind_run, he]
    exact .inr ⟨e, rfl⟩

variable (ft : FloatText) {pool : List Constant}

/-- Rendering goes on for as long as method handles refer to each other. -/
theorem displayConstant_refers {i j : U16} (h : Refers pool i j) (depth : ℕ) :
    (displayConstant ft pool (depth + 1) i).isSome = (displayConstant ft pool depth j).isSome := by
  obtain ⟨kind, h⟩ := h
  simp only [displayConstant, h, Option.isSome_map]

theorem displayConstant_leaf {i : U16} (h : ∀ j, ¬ Refers pool i j) (depth : ℕ) :
    (displayConstant ft pool (depth + 1) i).isSome := by
  unfold displayConstant
  split
  case h_14 kind reference hc => exact absurd ⟨kind, hc⟩ (h reference)
  all_goals rfl

/-- From a handle on a circle every rendering goes once more around. -/
theorem circle_not_displayed {i : U16} (h : Relation.TransGen (Refers pool) i i) (depth : ℕ) :
    displayConstant ft pool depth i = none := by
  induction depth generalizing i with
  | zero => rfl
  | succ depth ih =>
    obtain ⟨j, hij, hji⟩ := Relation.TransGen.head'_iff.mp h
    have next := displayConstant_refers ft hij depth
    rw [ih (Relation.TransGen.tail' hji hij)] at next
    simpa using next

/-- Without a circle the handles come to an end, since there are finitely many indices. -/
theorem displayed_of_acyclic (h : ∀ i, ¬ Relation.TransGen (Refers pool) i i) (i : U16) :
    ∃ depth, (displayConstant ft pool depth i).isSome := by
  let later : U16 → U16 → Prop := fun a b => Relation.TransGen (Refers pool) b a
  have : IsTrans U16 later := ⟨fun a b c hab hbc => hbc.trans hab⟩
  have : Std.Irrefl later := ⟨h⟩
  have : Finite U16 := Finite.of_injective BitVec.toFin fun _ _ => BitVec.eq_of_toFin_eq
  have ends : WellFounded later := Finite.wellFounded_of_trans_of_irrefl later
  induction i using ends.induction with
  | _ i ih =>
  by_cases next : ∃ j, Refers pool i j
  · obtain ⟨j, hj⟩ := next
    obtain ⟨depth, hd⟩ := ih j (.single hj)
    exact ⟨depth + 1, (displayConstant_refers ft hj depth).trans hd⟩
  · exact ⟨1, displayConstant_leaf ft (not_exists.mp next) 0⟩

/-- Nothing stops the reader on the file, and what it reads of the pool is what stands there. -/
structure Robust (ft : FloatText) (data : List Byte) : Prop where
  parse : Ends (parse data)
  decode : ∀ cf, ClassFiles.parse data = .ok cf → ∀ m ∈ cf.methods, ∀ code, m.code = some code →
    Ends (decode code.bytecode)
  display : ∀ cf, ClassFiles.parse data = .ok cf → ∀ i,
    ∃ depth, (displayConstant ft cf.constants depth i).isSome
  pool : ∀ cf, ClassFiles.parse data = .ok cf → ∃ p : PoolLayout data, cf.constants = p.slots ∧
    cf.constants.length = max 1 p.count.toNat

/-- No wide constant in the last slot, and no circle of method handles, of a file that is read to
its end; of the largest pool also when the file is cut off behind it. -/
def Tame (data : List Byte) : Prop :=
  ∀ p : PoolLayout data, (p.Overhangs → p.count.toNat ≠ 65535 ∧ ¬ p.BodyReads) ∧
    (p.BodyReads → ∀ i, ¬ Relation.TransGen (Refers p.slots) i i)

theorem layout_length (p : PoolLayout data) :
    p.slots.length = max 1 p.count.toNat ↔ ¬ p.Overhangs := by
  by_cases hc : 1 ≤ p.count.toNat
  · have full : max 1 p.count.toNat = p.count.toNat := max_eq_right hc
    rw [full, PoolLayout.slots, length_cons, add_comm]
    rcases consecutive_length p.consecutive hc with ⟨h, none⟩ | ⟨h, some⟩
    · exact iff_of_true h none
    · exact iff_of_false (by omega) (not_not.mpr some)
  · have empty : p.entries = [] := by
      cases he : p.entries with
      | nil => rfl
      | cons e es =>
        have h := p.consecutive
        rw [he] at h
        exact absurd h.1 (by omega)
    have zero : p.count.toNat = 0 := by omega
    simp [PoolLayout.slots, PoolLayout.Overhangs, empty, zero]

theorem parse_layout (p : PoolLayout data) {cf : ClassFile} :
    parse data = .ok cf ↔ ¬ Overflows p.entries ∧
      ∃ r, parseBody p.minor p.major p.slots ⟨data, stopOf 10 p.entries⟩ = .ok (cf, r) := by
  unfold parse
  rw [parseM_layout p]
  by_cases ho : Overflows p.entries
  · rw [if_pos ho]
    exact iff_of_false nofun fun h => h.1 ho
  · rw [if_neg ho]
    cases hb : parseBody p.minor p.major p.slots ⟨data, stopOf 10 p.entries⟩ with
    | error f => exact iff_of_false nofun fun ⟨_, r, h⟩ => nomatch h
    | ok x =>
      constructor
      · intro h
        cases h
        exact ⟨ho, x.2, rfl⟩
      · rintro ⟨-, r, h⟩
        cases h
        rfl

theorem parse_ends_iff (p : PoolLayout data) : Ends (parse data) ↔ ¬ Overflows p.entries := by
  unfold parse
  rw [parseM_layout p]
  by_cases ho : Overflows p.entries
  · rw [if_pos ho]
    exact iff_of_false not_ends_overflow (not_not.mpr ho)
  · rw [if_neg ho]
    refine iff_of_true ?_ ho
    have safe := safe_parseBody p.minor p.major p.slots ⟨data, stopOf 10 p.entries⟩
    cases hb : parseBody p.minor p.major p.slots ⟨data, stopOf 10 p.entries⟩ with
    | error f => exact Ends.of_error (hb ▸ safe)
    | ok x => exact .ok _

theorem robust_of_tame (h : Tame data) : Robust ft data := by
  rcases layout_or_error data with ⟨⟨p⟩⟩ | ⟨e, he⟩
  · obtain ⟨last, acyclic⟩ := h p
    have noOverflow : ¬ Overflows p.entries := by
      rw [overflows_iff]
      exact fun ho => (last ho.1).1 ho.2
    have slots : ∀ cf, parse data = .ok cf → cf.constants = p.slots ∧ p.BodyReads := by
      intro cf hcf
      obtain ⟨-, r, hr⟩ := (parse_layout p).mp hcf
      exact ⟨parseBody_constants _ _ _ hr, (cf, r), hr⟩
    constructor
    · exact (parse_ends_iff p).mpr noOverflow
    · intro cf _ m _ code _
      exact ends_decode code.bytecode
    · intro cf hcf i
      obtain ⟨same, body⟩ := slots cf hcf
      rw [same]
      exact displayed_of_acyclic ft (acyclic body) i
    · intro cf hcf
      obtain ⟨same, body⟩ := slots cf hcf
      refine ⟨p, same, ?_⟩
      rw [same, layout_length]
      exact fun ho => (last ho).2 body
  · have err : parse data = .error (.error e) := by
      unfold parse
      rw [he]
    constructor
    · rw [err]
      exact .error e
    all_goals
      intro cf hcf
      rw [err] at hcf
      cases hcf

theorem be16_injective {v w : U16} (h : be16 v = be16 w) : v = w := by
  obtain ⟨high, low⟩ : v.extractLsb' 8 8 = w.extractLsb' 8 8 ∧
      v.extractLsb' 0 8 = w.extractLsb' 0 8 := by simpa [be16] using h
  rw [← be16_joined v, ← be16_joined w, high, low]

theorem count_unique (p q : PoolLayout data) : p.count = q.count := by
  have heads := p.header.symm.trans q.header
  have counts := (append_inj (append_inj (append_inj heads rfl).2 rfl).2 rfl).2
  exact be16_injective counts

theorem tame_of_robust (h : Robust ft data) : Tame data := by
  intro p
  have noOverflow := (parse_ends_iff p).mp h.parse
  have parsed : p.BodyReads → ∃ cf, parse data = .ok cf ∧ cf.constants = p.slots := by
    rintro ⟨⟨cf, r⟩, hr⟩
    exact ⟨cf, (parse_layout p).mpr ⟨noOverflow, r, hr⟩, parseBody_constants _ _ _ hr⟩
  constructor
  · intro overhangs
    refine ⟨fun full => noOverflow ((overflows_iff p).mpr ⟨overhangs, full⟩), fun body => ?_⟩
    obtain ⟨cf, hcf, same⟩ := parsed body
    obtain ⟨q, -, length⟩ := h.pool cf hcf
    rw [same, ← count_unique p q] at length
    exact (layout_length p).mp length overhangs
  · intro body i circle
    obtain ⟨cf, hcf, same⟩ := parsed body
    obtain ⟨depth, shown⟩ := h.display cf hcf i
    rw [same, circle_not_displayed ft circle depth] at shown
    cases shown

/-- The reader gets through exactly the files without these two shapes. -/
theorem robust_iff_tame (data : List Byte) : Robust ft data ↔ Tame data :=
  ⟨tame_of_robust ft, robust_of_tame ft⟩

/-- A class whose only constant is a method handle for itself. -/
def selfHandle : List Byte :=
  [0xCA, 0xFE, 0xBA, 0xBE, 0, 0, 0, 52, 0, 2, 15, 1, 0, 1] ++ List.replicate 14 0

def selfHandleLayout : PoolLayout selfHandle where
  minor := 0
  major := 52
  count := 2
  entries := [⟨1, 10, 14, .methodHandle 1 1⟩]
  header := rfl
  consecutive := ⟨by decide, rfl, rfl, by decide, rfl, le_rfl⟩

theorem self_handle_not_robust : ¬ Robust ⟨fun _ => "", fun _ => ""⟩ selfHandle := by
  intro h
  have body : selfHandleLayout.BodyReads := ⟨_, rfl⟩
  have circle : Refers selfHandleLayout.slots 1 1 := ⟨1, rfl⟩
  exact (tame_of_robust _ h selfHandleLayout).2 body 1 (.single circle)

end ClassFiles
