import Reargo.ClassFiles

/-!
# Laws of the class file reader

Three properties of a reader with one rule for each combinator: it only moves forward, it ends
without a fault, and it reads a given value from given bytes at a given position.
-/
namespace ClassFiles

open PcodeModel ModifiedUtf8 List BitVec

variable {α β : Type}

theorem bind_run (p : ReadM α) (f : α → ReadM β) (r : Reader) :
    (p >>= f) r = match p r with
      | .ok (a, r') => f a r'
      | .error e => .error e := by
  change (Except.bind _ _ : Except Fault (β × Reader)) = _
  cases p r <;> rfl

variable {p : ReadM α}

variable {f : α → ReadM β} {bs : List Byte} {n pos : ℕ} {γ : Type}

theorem bind_ok {r s : Reader} {b : β}
    (h : (p >>= f) r = .ok (b, s)) : ∃ a r', p r = .ok (a, r') ∧ f a r' = .ok (b, s) := by
  rw [bind_run] at h
  cases hp : p r with
  | error e => rw [hp] at h; cases h
  | ok x => rw [hp] at h; exact ⟨x.1, x.2, rfl, h⟩

theorem bytes_ok {r r' : Reader} (h : bytes n r = .ok (bs, r')) :
    r.pos + n ≤ r.data.length ∧ bs = (r.data.drop r.pos).take n ∧
      r' = { r with pos := r.pos + n } := by
  unfold bytes at h
  split at h
  · rename_i hn
    cases h
    exact ⟨hn, rfl, rfl⟩
  · cases h

theorem bytes_length {r r' : Reader} (h : bytes n r = .ok (bs, r')) : bs.length = n := by
  obtain ⟨hn, rfl, -⟩ := bytes_ok h
  rw [length_take, length_drop]
  omega

theorem index_ok {i : ℕ} {r r' : Reader} {b : Byte}
    (h : index bs i r = .ok (b, r')) : bs[i]? = some b ∧ r' = r := by
  unfold index at h
  split at h
  · rename_i hb
    cases h
    exact ⟨hb, rfl⟩
  · cases h

/-- The reader keeps its slice and moves on by at least a number of bytes. -/
def Advances (n : ℕ) (p : ReadM α) : Prop :=
  ∀ ⦃r a r'⦄, p r = .ok (a, r') → r'.data = r.data ∧ r.pos + n ≤ r'.pos

theorem Advances.pure (a : α) : Advances 0 (pure a : ReadM α) := by
  intro r b r' h
  cases h
  exact ⟨rfl, le_rfl⟩

theorem Advances.fail (f : Fault) (n : ℕ) : Advances n (fail f : ReadM α) := by
  intro r b r' h
  cases h

theorem Advances.bind {m : ℕ} (hp : Advances m p)
    (hf : ∀ a, Advances n (f a)) : Advances (m + n) (p >>= f) := by
  intro r b s h
  obtain ⟨a, r', h₁, h₂⟩ := bind_ok h
  obtain ⟨d₁, l₁⟩ := hp h₁
  obtain ⟨d₂, l₂⟩ := hf a h₂
  exact ⟨d₂.trans d₁, by omega⟩

theorem Advances.mono {m : ℕ} (hp : Advances m p) (h : n ≤ m) : Advances n p := by
  intro r a r' ha
  obtain ⟨d, l⟩ := hp ha
  exact ⟨d, by omega⟩

/-- A continuation that only has to move forward. -/
theorem Advances.andThen (hp : Advances n p) (hf : ∀ a, Advances 0 (f a)) : Advances n
    (p >>= f) := hp.bind hf

theorem Advances.ite {c : Prop} [Decidable c] {p q : ReadM α} (hp : Advances n p)
    (hq : Advances n q) : Advances n (if c then p else q) := by
  split
  · exact hp
  · exact hq

theorem advances_bytes (n : ℕ) : Advances n (bytes n) := by
  intro r bs r' h
  obtain ⟨-, -, rfl⟩ := bytes_ok h
  exact ⟨rfl, le_rfl⟩

theorem advances_index (bs : List Byte) (i : ℕ) : Advances 0 (index bs i) := by
  intro r b r' h
  obtain ⟨-, rfl⟩ := index_ok h
  exact ⟨rfl, le_rfl⟩

theorem advances_u8 : Advances 1 u8 :=
  (advances_bytes 1).andThen fun b => advances_index b 0

theorem advances_u16 : Advances 2 u16 :=
  (advances_bytes 2).andThen fun b => (advances_index b 0).andThen fun _ =>
    (advances_index b 1).andThen fun _ => .pure _

theorem advances_u32 : Advances 4 u32 :=
  (advances_bytes 4).andThen fun b => (advances_index b 0).andThen fun _ =>
    (advances_index b 1).andThen fun _ => (advances_index b 2).andThen fun _ =>
      (advances_index b 3).andThen fun _ => .pure _

theorem advances_u64 : Advances 8 u64 :=
  advances_u32.bind fun _ => advances_u32.andThen fun _ => .pure _

theorem advances_times (hp : Advances 0 p) (n : ℕ) : Advances 0 (times p n) := by
  induction n with
  | zero => exact .pure _
  | succ n ih => exact hp.andThen fun _ => ih.andThen fun _ => .pure _

theorem advances_readConstant (tag : Byte) (i : ℕ) : Advances 0 (readConstant tag i) := by
  have h8 := advances_u8.mono (Nat.zero_le 1)
  have h16 := advances_u16.mono (Nat.zero_le 2)
  have h32 := advances_u32.mono (Nat.zero_le 4)
  have h64 := advances_u64.mono (Nat.zero_le 8)
  unfold readConstant
  split
  · exact h16.andThen fun len =>
      ((advances_bytes len.toNat).mono (Nat.zero_le _)).andThen fun _ => .pure _
  all_goals first
    | exact .fail _ _
    | exact h16.andThen fun _ => .pure _
    | exact h32.andThen fun _ => .pure _
    | exact h64.andThen fun _ => .pure _
    | exact h16.andThen fun _ => h16.andThen fun _ => .pure _
    | exact h8.andThen fun _ => h16.andThen fun _ => .pure _

theorem advances_readEntry (i : ℕ) : Advances 1 (readEntry i) :=
  advances_u8.andThen fun tag => advances_readConstant tag i

/-- An outcome that is a value or an error the caller sees. -/
def Ends {γ : Type} (x : Except Fault γ) : Prop :=
  ∀ f, x = .error f → ∃ e, f = .error e

def Safe (p : ReadM α) : Prop := ∀ r, Ends (p r)

theorem Ends.ok (c : γ) : Ends (.ok c) := by
  intro f h
  cases h

theorem Ends.error (e : JvmError) : Ends (.error (.error e) : Except Fault γ) := by
  intro f h
  cases h
  exact ⟨e, rfl⟩

theorem not_ends_overflow : ¬ Ends (.error .overflow : Except Fault γ) := by
  intro h
  obtain ⟨e, he⟩ := h _ rfl
  cases he

theorem Ends.of_error {δ : Type} {f : Fault} (h : Ends (.error f : Except Fault γ)) :
    Ends (.error f : Except Fault δ) := by
  obtain ⟨e, rfl⟩ := h f rfl
  exact .error e

theorem Safe.pure (a : α) : Safe (pure a : ReadM α) := fun _ => .ok _

theorem Safe.fail (e : JvmError) : Safe (fail (.error e) : ReadM α) := fun _ => .error e

/-- The continuation may use that its value was read. -/
theorem Safe.bind' (hp : Safe p)
    (hf : ∀ r a r', p r = .ok (a, r') → Ends (f a r')) : Safe (p >>= f) := by
  intro r
  rw [bind_run]
  cases h : p r with
  | error e => exact Ends.of_error (h ▸ hp r)
  | ok x => exact hf r x.1 x.2 h

theorem Safe.bind (hp : Safe p) (hf : ∀ a, Safe (f a)) :
    Safe (p >>= f) := hp.bind' fun _ a r' _ => hf a r'

theorem Safe.ite {c : Prop} [Decidable c] {p q : ReadM α} (hp : Safe p) (hq : Safe q) :
    Safe (if c then p else q) := by
  split
  · exact hp
  · exact hq

theorem safe_bytes (n : ℕ) : Safe (bytes n) := by
  intro r
  unfold bytes
  split
  · exact .ok _
  · exact .error _

theorem safe_index {i : ℕ} (h : i < bs.length) : Safe (index bs i) := by
  intro r
  unfold index
  rw [List.getElem?_eq_getElem h]
  exact .ok _

theorem safe_u8 : Safe u8 := by
  apply (safe_bytes 1).bind'
  intro r b r' h
  have hb := bytes_length h
  exact safe_index (by omega) r'

theorem safe_leadingU16 {body : List Byte} (h : 2 ≤ body.length) : Safe (leadingU16 body) :=
  (safe_index (by omega)).bind fun _ => (safe_index (by omega)).bind fun _ => .pure _

theorem safe_u16 : Safe u16 := by
  apply (safe_bytes 2).bind'
  intro r b r' h
  exact safe_leadingU16 (le_of_eq (bytes_length h).symm) r'

theorem safe_u32 : Safe u32 := by
  apply (safe_bytes 4).bind'
  intro r b r' h
  have hb := bytes_length h
  have run : Safe (do
      return ((← index b 0) ++ (← index b 1)) ++ ((← index b 2) ++ (← index b 3))) :=
    (safe_index (by omega)).bind fun _ => (safe_index (by omega)).bind fun _ =>
      (safe_index (by omega)).bind fun _ => (safe_index (by omega)).bind fun _ => .pure _
  exact run r'

theorem safe_u64 : Safe u64 := safe_u32.bind fun _ => safe_u32.bind fun _ => .pure _

theorem safe_times (hp : Safe p) (n : ℕ) : Safe (times p n) := by
  induction n with
  | zero => exact .pure _
  | succ n ih => exact hp.bind fun _ => ih.bind fun _ => .pure _

theorem safe_iterate {p : α → ReadM α} (hp : ∀ a, Safe (p a)) (n : ℕ) (a : α) :
    Safe (iterate p n a) := by
  induction n generalizing a with
  | zero => exact .pure _
  | succ n ih => exact (hp a).bind ih

theorem safe_within (body : List Byte) (hp : Safe p) : Safe (within body p) := by
  intro r
  unfold within
  cases h : p ⟨body, 0⟩ with
  | error f => exact Ends.of_error (h ▸ hp ⟨body, 0⟩)
  | ok x => exact .ok _

/-- At a position where the bytes stand, the reader gives the value and stops behind them. -/
def Reads (pos : ℕ) (p : ReadM α) (enc : List Byte) (a : α) : Prop :=
  ∀ before behind, before.length = pos →
    p ⟨before ++ (enc ++ behind), pos⟩ = .ok (a, ⟨before ++ (enc ++ behind), pos + enc.length⟩)

theorem Reads.run {e : List Byte} {a : α} (h : Reads pos p e a) {data : List Byte}
    (before behind : List Byte) (hd : data = before ++ (e ++ behind))
    (hb : before.length = pos) : p ⟨data, pos⟩ = .ok (a, ⟨data, pos + e.length⟩) := by
  subst hd
  exact h before behind hb

theorem Reads.pure (pos : ℕ) (a : α) : Reads pos (pure a) [] a := fun _ _ _ => rfl

theorem Reads.bind {e d : List Byte} {a : α} {b : β}
    (hp : Reads pos p e a) (hf : Reads (pos + e.length) (f a) d b) :
    Reads pos (p >>= f) (e ++ d) b := by
  intro before behind hb
  have h₁ := hp before (d ++ behind) hb
  have h₂ := hf (before ++ e) behind (by rw [length_append, hb])
  rw [List.append_assoc] at h₂
  rw [bind_run, List.append_assoc, h₁]
  simp only [h₂, length_append, Nat.add_assoc]

theorem Reads.map {e : List Byte} {a : α} (f : α → β)
    (hp : Reads pos p e a) : Reads pos (do return f (← p)) e (f a) := by
  have h := hp.bind (f := fun x => (Pure.pure (f x) : ReadM β)) (Reads.pure _ (f a))
  rwa [append_nil] at h

theorem reads_bytes (pos : ℕ) (e : List Byte) : Reads pos (bytes e.length) e e := by
  intro before behind hb
  have hlen : pos + e.length ≤ (before ++ (e ++ behind)).length := by
    simp only [length_append, hb]
    omega
  have hdrop : (before ++ (e ++ behind)).drop pos = e ++ behind := by
    rw [← hb, drop_left]
  unfold bytes
  rw [if_pos hlen]
  dsimp only
  rw [hdrop, take_left]

theorem reads_u8 (pos : ℕ) (b : Byte) : Reads pos u8 [b] b := by
  intro before behind hb
  have h := reads_bytes pos [b] before behind hb
  unfold u8
  rw [bind_run]
  simp only [length_singleton] at h
  rw [h]
  rfl

/-- The two bytes of a half word, high byte first. -/
def be16 (v : U16) : List Byte := [v.extractLsb' 8 8, v.extractLsb' 0 8]

def be32 (v : U32) : List Byte :=
  [v.extractLsb' 24 8, v.extractLsb' 16 8, v.extractLsb' 8 8, v.extractLsb' 0 8]

@[simp] theorem be16_length (v : U16) : (be16 v).length = 2 := rfl

@[simp] theorem be32_length (v : U32) : (be32 v).length = 4 := rfl

theorem be16_joined (v : U16) : v.extractLsb' 8 8 ++ v.extractLsb' 0 8 = v :=
  @BitVec.extractLsb'_append_extractLsb' 8 8 v

theorem be32_joined (v : U32) : (v.extractLsb' 24 8 ++ v.extractLsb' 16 8) ++
      (v.extractLsb' 8 8 ++ v.extractLsb' 0 8) = v := by
  have high : v.extractLsb' 24 8 ++ v.extractLsb' 16 8 = v.extractLsb' 16 16 :=
    extractLsb'_append_extractLsb'_eq_extractLsb' rfl
  have low : v.extractLsb' 8 8 ++ v.extractLsb' 0 8 = v.extractLsb' 0 16 :=
    extractLsb'_append_extractLsb'_eq_extractLsb' rfl
  rw [high, low]
  exact @BitVec.extractLsb'_append_extractLsb' 16 16 v

theorem be16_append (a b : Byte) : be16 (a ++ b) = [a, b] := by
  have high : BitVec.extractLsb' 8 8 (a ++ b) = a := extractLsb'_append_eq_left
  have low : BitVec.extractLsb' 0 8 (a ++ b) = b := extractLsb'_append_eq_right
  change [BitVec.extractLsb' 8 8 (a ++ b), BitVec.extractLsb' 0 8 (a ++ b)] = _
  rw [high, low]

theorem be32_append (a b : U16) : be32 (a ++ b) = be16 a ++ be16 b := by
  have high (k : ℕ) (h : 16 ≤ k) :
      BitVec.extractLsb' k 8 (a ++ b) = BitVec.extractLsb' (k - 16) 8 a :=
    extractLsb'_append_eq_of_le h
  have low (k : ℕ) (h : k + 8 ≤ 16) :
      BitVec.extractLsb' k 8 (a ++ b) = BitVec.extractLsb' k 8 b :=
    extractLsb'_append_eq_of_add_le h
  change [BitVec.extractLsb' 24 8 (a ++ b), BitVec.extractLsb' 16 8 (a ++ b),
    BitVec.extractLsb' 8 8 (a ++ b), BitVec.extractLsb' 0 8 (a ++ b)] = _
  rw [high 24 (by decide), high 16 (by decide), low 8 (by decide), low 0 (by decide)]
  rfl

theorem reads_u16 (pos : ℕ) (v : U16) : Reads pos u16 (be16 v) v := by
  intro before behind hb
  have h := reads_bytes pos (be16 v) before behind hb
  unfold u16
  rw [bind_run]
  rw [be16_length] at h ⊢
  rw [h]
  exact congrArg (fun x => Except.ok (x, _)) (be16_joined v)

theorem reads_u32 (pos : ℕ) (v : U32) : Reads pos u32 (be32 v) v := by
  intro before behind hb
  have h := reads_bytes pos (be32 v) before behind hb
  unfold u32
  rw [bind_run]
  rw [be32_length] at h ⊢
  rw [h]
  exact congrArg (fun x => Except.ok (x, _)) (be32_joined v)

/-- A half word that was read stands at the position. -/
theorem u16_ok {r r' : Reader} {v : U16} (h : u16 r = .ok (v, r')) :
    r.pos + 2 ≤ r.data.length ∧ (r.data.drop r.pos).take 2 = be16 v ∧
      r' = { r with pos := r.pos + 2 } := by
  obtain ⟨bs, s, hbs, h⟩ := bind_ok h
  obtain ⟨a, s₁, ha, h⟩ := bind_ok h
  obtain ⟨b, s₂, hb, h⟩ := bind_ok h
  have len := bytes_length hbs
  obtain ⟨hn, taken, rfl⟩ := bytes_ok hbs
  obtain ⟨h0, rfl⟩ := index_ok ha
  obtain ⟨h1, rfl⟩ := index_ok hb
  cases h
  refine ⟨hn, ?_, rfl⟩
  rw [← taken, be16_append]
  match bs, len, h0, h1 with
  | [x, y], _, h0, h1 =>
    cases h0
    cases h1
    rfl

theorem u32_ok {r r' : Reader} {v : U32} (h : u32 r = .ok (v, r')) :
    r.pos + 4 ≤ r.data.length ∧ (r.data.drop r.pos).take 4 = be32 v ∧
      r' = { r with pos := r.pos + 4 } := by
  obtain ⟨bs, s, hbs, h⟩ := bind_ok h
  obtain ⟨a, s₁, ha, h⟩ := bind_ok h
  obtain ⟨b, s₂, hb, h⟩ := bind_ok h
  obtain ⟨c, s₃, hc, h⟩ := bind_ok h
  obtain ⟨d, s₄, hd, h⟩ := bind_ok h
  have len := bytes_length hbs
  obtain ⟨hn, taken, rfl⟩ := bytes_ok hbs
  obtain ⟨h0, rfl⟩ := index_ok ha
  obtain ⟨h1, rfl⟩ := index_ok hb
  obtain ⟨h2, rfl⟩ := index_ok hc
  obtain ⟨h3, rfl⟩ := index_ok hd
  cases h
  refine ⟨hn, ?_, rfl⟩
  have joined : be32 ((a ++ b) ++ (c ++ d)) = [a, b, c, d] := by
    rw [be32_append, be16_append, be16_append]
    rfl
  rw [← taken]
  refine Eq.trans ?_ joined.symm
  match bs, len, h0, h1, h2, h3 with
  | [w, x, y, z], _, h0, h1, h2, h3 =>
    cases h0
    cases h1
    cases h2
    cases h3
    rfl

theorem reads_times {enc : β → List Byte} {val : β → α} (xs : List β)
    (hp : ∀ x ∈ xs, ∀ pos, Reads pos p (enc x) (val x)) (pos : ℕ) :
    Reads pos (times p xs.length) (xs.flatMap enc) (xs.map val) := by
  induction xs generalizing pos with
  | nil => exact Reads.pure pos []
  | cons x xs ih =>
    have rest := ih (fun y hy => hp y (mem_cons_of_mem x hy)) (pos + (enc x).length)
    exact (hp x mem_cons_self pos).bind (rest.map (val x :: ·))

end ClassFiles
