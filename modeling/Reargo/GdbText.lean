import Reargo.GdbStub

/-!
# Numbers and bytes in packets

What a text says as a hexadecimal number or as a row of bytes, and where cutting it in pairs of
bytes ends inside a character. Decoding has one outcome for each of the three.
-/
namespace GdbStub

open PcodeModel List Option

/-- The text is digits, perhaps behind a plus sign, of a value below a power of two. -/
def HexNumber (w : ℕ) (text : Text) (v : ℕ) : Prop :=
  ∃ ds, ds ≠ [] ∧ (text = ds ∨ text = '+' :: ds) ∧ digits 0 ds = some v ∧ v < 2 ^ w

variable {v : ℕ}

theorem digits_to_digit {ds : Text} {acc : ℕ} (h : digits acc ds = some v) :
    ∀ c ∈ ds, (to_digit c).isSome := by
  induction ds generalizing acc with
  | nil => simp
  | cons c ds ih =>
    unfold digits at h
    obtain ⟨d, hd, h⟩ := bind_eq_some_iff.mp h
    intro x hx
    rcases mem_cons.mp hx with rfl | hx
    · exact isSome_of_mem hd
    · exact ih h x hx

variable {w : ℕ}

theorem from_str_radix_iff {text : Text} : from_str_radix w text = some v ↔ HexNumber w text v := by
  have plain (ds : Text) : (if ds = [] then none else (digits 0 ds).filter (· < 2 ^ w)) = some v ↔
      ds ≠ [] ∧ digits 0 ds = some v ∧ v < 2 ^ w := by
    by_cases hn : ds = []
    · simp [hn]
    · simp [hn, filter_eq_some_iff]
  unfold from_str_radix
  dsimp only
  split
  · rename_i rest
    rw [plain]
    constructor
    · rintro ⟨hn, hd, hv⟩
      exact ⟨rest, hn, .inr rfl, hd, hv⟩
    · rintro ⟨ds, hn, rfl | h, hd, hv⟩
      · exact absurd (digits_to_digit hd '+' mem_cons_self) (by decide)
      · cases h
        exact ⟨hn, hd, hv⟩
  · rename_i other
    rw [plain]
    constructor
    · rintro ⟨hn, hd, hv⟩
      exact ⟨text, hn, .inl rfl, hd, hv⟩
    · rintro ⟨ds, hn, rfl | rfl, hd, hv⟩
      · exact ⟨hn, hd, hv⟩
      · exact absurd rfl (other ds)

theorem hexNumber_unique {text : Text} {v' : ℕ} (h : HexNumber w text v)
    (h' : HexNumber w text v') : v = v' :=
  some.inj ((from_str_radix_iff.mpr h).symm.trans (from_str_radix_iff.mpr h'))

theorem hexNumber_chars {text : Text} (h : HexNumber w text v) :
    ∀ c ∈ text, c = '+' ∨ (to_digit c).isSome := by
  obtain ⟨ds, -, rfl | rfl, hd, -⟩ := h
  · exact fun c hc => .inr (digits_to_digit hd c hc)
  · intro c hc
    rcases mem_cons.mp hc with rfl | hc
    · exact .inl rfl
    · exact .inr (digits_to_digit hd c hc)

theorem utf8Size_of_digit {c : Char} (h : c = '+' ∨ (to_digit c).isSome) : c.utf8Size = 1 := by
  rw [Char.utf8Size_eq_one_iff]
  rcases h with rfl | h
  · decide
  · unfold to_digit at h
    have bound : c.toNat ≤ 127 := by
      dsimp only at h
      split at h
      · omega
      split at h
      · omega
      split at h
      · omega
      · cases h
    exact bound

inductive HexBytes : Text → List Byte → Prop where
  | nil : HexBytes [] []
  | cons {c d b text bytes} : HexNumber 8 [c, d] b → HexBytes text bytes →
      HexBytes (c :: d :: text) (BitVec.ofNat 8 b :: bytes)

/-- The first two bytes of the text end inside a character. -/
def CutsInside (text : Text) : Prop :=
  (∃ c rest, text = c :: rest ∧ 3 ≤ c.utf8Size) ∨
    ∃ c d rest, text = c :: d :: rest ∧ c.utf8Size = 1 ∧ 2 ≤ d.utf8Size

inductive Splits : Text → Prop where
  | here {text} : CutsInside text → Splits text
  | later {c d b text} : HexNumber 8 [c, d] b → Splits text → Splits (c :: d :: text)

/-- Of an even number of bytes, and behind some pairs of digits a pair ends inside a character. -/
def SplitsChar (text : Text) : Prop := len text % 2 = 0 ∧ Splits text

theorem pair_sizes {c d : Char} {b : ℕ} (h : HexNumber 8 [c, d] b) :
    c.utf8Size = 1 ∧ d.utf8Size = 1 :=
  ⟨utf8Size_of_digit (hexNumber_chars h c (by simp)), utf8Size_of_digit (hexNumber_chars h d (by simp))⟩

theorem hexBytes_unique {text : Text} {bytes bytes' : List Byte} (h : HexBytes text bytes)
    (h' : HexBytes text bytes') : bytes = bytes' := by
  induction h generalizing bytes' with
  | nil =>
    cases h'
    rfl
  | cons hb _ ih =>
    cases h' with
    | cons hb' h' => rw [hexNumber_unique hb hb', ih h']

theorem len_cons (c : Char) (text : Text) : len (c :: text) = c.utf8Size + len text := by
  simp [len]

theorem len_append (a b : Text) : len (a ++ b) = len a + len b := by simp [len]

theorem hexBytes_len {text : Text} {bytes : List Byte} (h : HexBytes text bytes) :
    len text = 2 * bytes.length := by
  induction h with
  | nil => rfl
  | cons hb _ ih =>
    obtain ⟨hc, hd⟩ := pair_sizes hb
    rw [len_cons, len_cons, ih, hc, hd, length_cons]
    omega

theorem dropBytes_append (before rest : Text) :
    dropBytes (len before) (before ++ rest) = some rest := by
  induction before with
  | nil => simp [len, dropBytes]
  | cons c before ih =>
    have pos := Char.utf8Size_pos c
    rw [len_cons, cons_append]
    obtain ⟨n, hn⟩ : ∃ n, c.utf8Size + len before = n + 1 := ⟨c.utf8Size + len before - 1, by omega⟩
    rw [hn, dropBytes, if_pos (by omega)]
    have left : n + 1 - c.utf8Size = len before := by omega
    rw [left, ih]

variable {rest : Text} {addr : U64}

theorem slice_append {before : Text} {i : ℕ} (h : len before = i) :
    slice (before ++ rest) i (i + 2) = takeBytes 2 rest := by
  rw [slice, ← h, dropBytes_append, bind_some, Nat.add_sub_cancel_left]

theorem takeBytes_pair {c d : Char} (hc : c.utf8Size = 1) (hd : d.utf8Size = 1) :
    takeBytes 2 (c :: d :: rest) = some [c, d] := by
  simp [takeBytes, hc, hd]

theorem takeBytes_cut (h : CutsInside rest) : takeBytes 2 rest = none := by
  rcases h with ⟨c, rest, rfl, hc⟩ | ⟨c, d, rest, rfl, hc, hd⟩
  · rw [takeBytes, if_neg (by omega)]
  · rw [takeBytes, if_pos (by omega), hc, takeBytes, if_neg (by omega)]
    rfl

theorem not_splits {text : Text} {bytes : List Byte} (h : HexBytes text bytes) : ¬ Splits text := by
  intro hs
  induction hs generalizing bytes with
  | here hcut =>
    cases h with
    | nil => rcases hcut with ⟨c, r, h, -⟩ | ⟨c, d, r, h, -⟩ <;> cases h
    | cons hb _ =>
      obtain ⟨hc, hd⟩ := pair_sizes hb
      rcases hcut with ⟨c, r, h, size⟩ | ⟨c, d, r, h, -, size⟩
      · cases h
        omega
      · cases h
        omega
  | later _ _ ih =>
    cases h with
    | cons _ h => exact ih h

def DecodesTo (text : Text) (r : Option (Option (List Byte))) : Prop :=
  (∃ bytes, HexBytes text bytes ∧ r = some (some bytes)) ∨ (Splits text ∧ r = none) ∨
    ((∀ bytes, ¬ HexBytes text bytes) ∧ ¬ Splits text ∧ r = some none)

theorem decodesTo_stopped {c : Char} (hc : c.utf8Size = 2) : DecodesTo (c :: rest) (some none) := by
  refine .inr (.inr ⟨fun bytes h => ?_, fun h => ?_, rfl⟩)
  · cases h with
    | cons hb _ =>
      have := (pair_sizes hb).1
      omega
  · cases h with
    | here hcut =>
      rcases hcut with ⟨c', r, h, size⟩ | ⟨c', d, r, h, size, -⟩
      · cases h
        omega
      · cases h
        omega
    | later hb _ =>
      have := (pair_sizes hb).1
      omega

theorem decodesTo_pair {c d : Char} {r : Option (Option (List Byte))}
    (hc : c.utf8Size = 1) (hd : d.utf8Size = 1) (h : DecodesTo rest r) :
    DecodesTo (c :: d :: rest) (match from_str_radix 8 [c, d] with
      | none => some none
      | some b => r.map (Option.map (BitVec.ofNat 8 b :: ·))) := by
  have uncut : ¬ CutsInside (c :: d :: rest) := by
    rintro (⟨c', r, h, size⟩ | ⟨c', d', r, h, -, size⟩)
    · cases h
      omega
    · cases h
      omega
  cases hb : from_str_radix 8 [c, d] with
  | none =>
    have no : ∀ b, ¬ HexNumber 8 [c, d] b := by
      intro b h
      rw [from_str_radix_iff.mpr h] at hb
      cases hb
    refine .inr (.inr ⟨fun bytes h => ?_, fun h => ?_, rfl⟩)
    · cases h with
      | cons hb' _ => exact no _ hb'
    · cases h with
      | here hcut => exact uncut hcut
      | later hb' _ => exact no _ hb'
  | some b =>
    have number := from_str_radix_iff.mp hb
    rcases h with ⟨bytes, hbytes, rfl⟩ | ⟨hs, rfl⟩ | ⟨none, whole, rfl⟩
    · exact .inl ⟨_, .cons number hbytes, rfl⟩
    · exact .inr (.inl ⟨.later number hs, rfl⟩)
    · refine .inr (.inr ⟨fun bytes h => ?_, fun h => ?_, rfl⟩)
      · cases h with
        | cons _ h => exact none _ h
      · cases h with
        | here hcut => exact uncut hcut
        | later _ h => exact whole h

theorem decodePairs_decodes (n : ℕ) (before rest : Text) (m : ℕ) (hb : len before = 2 * m)
    (hr : len rest = 2 * n) :
    DecodesTo rest (decodePairs (before ++ rest) ((List.range n).map fun k => 2 * (m + k))) := by
  induction n generalizing before rest m with
  | zero =>
    cases rest with
    | nil => exact .inl ⟨[], .nil, rfl⟩
    | cons c rest =>
      have := Char.utf8Size_pos c
      rw [len_cons] at hr
      omega
  | succ n ih =>
    rw [range_succ_eq_map, map_cons, List.map_map, decodePairs, Nat.add_zero,
      slice_append hb]
    cases rest with
    | nil => simp [len] at hr
    | cons c rest =>
      have pos := Char.utf8Size_pos c
      rw [len_cons] at hr
      by_cases h3 : 3 ≤ c.utf8Size
      · have cut : CutsInside (c :: rest) := .inl ⟨c, rest, rfl, h3⟩
        rw [takeBytes_cut cut]
        exact .inr (.inl ⟨.here cut, rfl⟩)
      by_cases h2 : c.utf8Size = 2
      · have single : takeBytes 2 (c :: rest) = some [c] := by simp [takeBytes, h2]
        have no : from_str_radix 8 [c] = none := by
          cases hb : from_str_radix 8 [c] with
          | none => rfl
          | some b =>
            have := utf8Size_of_digit (hexNumber_chars (from_str_radix_iff.mp hb) c (by simp))
            omega
        rw [single]
        dsimp only
        rw [no]
        exact decodesTo_stopped h2
      have h1 : c.utf8Size = 1 := by omega
      cases rest with
      | nil =>
        simp only [len, map_nil, sum_nil] at hr
        omega
      | cons d rest =>
        have posd := Char.utf8Size_pos d
        rw [len_cons] at hr
        by_cases hd : 2 ≤ d.utf8Size
        · have cut : CutsInside (c :: d :: rest) := .inr ⟨c, d, rest, rfl, h1, hd⟩
          rw [takeBytes_cut cut]
          exact .inr (.inl ⟨.here cut, rfl⟩)
        have hd1 : d.utf8Size = 1 := by omega
        have next := ih (before ++ [c, d]) rest (m + 1)
          (by rw [len_append, len_cons, len_cons, hb, h1, hd1]; simp only [len]; rfl)
          (by omega)
        have positions : ((fun k => 2 * (m + k)) ∘ Nat.succ) = fun k => 2 * (m + 1 + k) := by
          funext k
          simp only [Function.comp_apply]
          omega
        rw [takeBytes_pair h1 hd1, positions]
        rw [append_assoc] at next
        exact decodesTo_pair h1 hd1 next

theorem hex_decode_cases (text : Text) :
    (∃ bytes, HexBytes text bytes ∧ ¬ SplitsChar text ∧ hex_decode text = some (some bytes)) ∨
      (SplitsChar text ∧ hex_decode text = none) ∨
      ((∀ bytes, ¬ HexBytes text bytes) ∧ ¬ SplitsChar text ∧ hex_decode text = some none) := by
  by_cases even : len text % 2 = 0
  · have run : hex_decode text = decodePairs text ((range (len text / 2)).map (2 * ·)) := by
      rw [hex_decode, if_neg (not_not.mpr even)]
    have h := decodePairs_decodes (len text / 2) [] text 0 rfl (by omega)
    simp only [nil_append, zero_add] at h
    rw [← run] at h
    rcases h with ⟨bytes, hb, hr⟩ | ⟨hs, hr⟩ | ⟨no, hs, hr⟩
    · exact .inl ⟨bytes, hb, fun h => not_splits hb h.2, hr⟩
    · exact .inr (.inl ⟨⟨even, hs⟩, hr⟩)
    · exact .inr (.inr ⟨no, fun h => hs h.2, hr⟩)
  · refine .inr (.inr ⟨fun bytes h => ?_, fun h => even h.1, ?_⟩)
    · have := hexBytes_len h
      omega
    · rw [hex_decode, if_pos even]

theorem hex_decode_bytes {text : Text} {bytes : List Byte} (h : HexBytes text bytes) :
    hex_decode text = some (some bytes) := by
  rcases hex_decode_cases text with ⟨bytes', hb, -, hr⟩ | ⟨hs, -⟩ | ⟨no, -⟩
  · rw [hr, hexBytes_unique h hb]
  · exact absurd hs.2 (not_splits h)
  · exact absurd h (no bytes)

theorem hexByte_number (b : Byte) : from_str_radix 8 (hexByte b) = some b.toNat := by
  revert b
  decide

theorem hexBytes_encoded (bytes : List Byte) : HexBytes (bytes.flatMap hexByte) bytes := by
  induction bytes with
  | nil => exact .nil
  | cons b bytes ih =>
    have h := HexBytes.cons (from_str_radix_iff.mp (hexByte_number b)) ih
    rwa [BitVec.ofNat_toNat, BitVec.setWidth_eq] at h

theorem split_once_iff {sep : Char} {text a b : Text} :
    split_once sep text = some (a, b) ↔ text = a ++ sep :: b ∧ sep ∉ a := by
  induction text generalizing a with
  | nil => simp [split_once]
  | cons c text ih =>
    unfold split_once
    by_cases hc : c = sep
    · subst hc
      rw [if_pos rfl]
      constructor
      · intro h
        cases h
        exact ⟨rfl, by simp⟩
      · rintro ⟨h, hn⟩
        cases a with
        | nil =>
          cases h
          rfl
        | cons x a =>
          cases h
          exact absurd mem_cons_self hn
    · rw [if_neg hc]
      constructor
      · intro h
        obtain ⟨⟨a', b'⟩, hs, heq⟩ := map_eq_some_iff.mp h
        cases heq
        obtain ⟨rfl, hn⟩ := ih.mp hs
        refine ⟨rfl, fun hm => ?_⟩
        rcases mem_cons.mp hm with h | h
        · exact hc h.symm
        · exact hn h
      · rintro ⟨h, hn⟩
        cases a with
        | nil =>
          cases h
          exact absurd rfl hc
        | cons x a =>
          cases h
          rw [ih.mpr ⟨rfl, fun hm => hn (mem_cons_of_mem _ hm)⟩]
          rfl

/-- An address and a length with a comma between them. -/
def Range (text : Text) (addr : U64) (k : ℕ) : Prop :=
  ∃ a l n, text = a ++ ',' :: l ∧ HexNumber 64 a n ∧ HexNumber 64 l k ∧ addr = BitVec.ofNat 64 n

theorem not_mem_number {text : Text} (h : HexNumber w text v) {sep : Char}
    (hs : sep ≠ '+') (hd : to_digit sep = none) : sep ∉ text := by
  intro hm
  rcases hexNumber_chars h sep hm with h | h
  · exact hs h
  · rw [hd] at h
    cases h

theorem range_below {text : Text} {k : ℕ} (h : Range text addr k) : k < 2 ^ 64 := by
  obtain ⟨a, l, n, -, -, ⟨_, _, _, _, hk⟩, -⟩ := h
  exact hk

theorem parse_addr_len_iff {text : Text} {y : U64} :
    parse_addr_len text = some (addr, y) ↔ ∃ k, Range text addr k ∧ y = BitVec.ofNat 64 k := by
  unfold parse_addr_len
  simp only [bind_eq_bind, bind_eq_some_iff, Option.pure_def, Option.some.injEq,
    Prod.mk.injEq]
  constructor
  · rintro ⟨⟨a, l⟩, hs, n, hn, k, hk, rfl, rfl⟩
    obtain ⟨rfl, -⟩ := split_once_iff.mp hs
    exact ⟨k, ⟨a, l, n, rfl, from_str_radix_iff.mp hn, from_str_radix_iff.mp hk, rfl⟩, rfl⟩
  · rintro ⟨k, ⟨a, l, n, rfl, hn, hk, rfl⟩, rfl⟩
    have comma : ',' ∉ a := not_mem_number hn (by decide) rfl
    exact ⟨(a, l), split_once_iff.mpr ⟨rfl, comma⟩, n, from_str_radix_iff.mpr hn, k,
      from_str_radix_iff.mpr hk, rfl, rfl⟩

theorem parse_range {text : Text} {k : ℕ} (h : Range text addr k) :
    parse_addr_len text = some (addr, BitVec.ofNat 64 k) :=
  parse_addr_len_iff.mpr ⟨k, h, rfl⟩

theorem split_range {range hex : Text} {k : ℕ} (h : Range range addr k) :
    split_once ':' (range ++ ':' :: hex) = some (range, hex) := by
  obtain ⟨a, l, n, rfl, hn, hk, -⟩ := h
  refine split_once_iff.mpr ⟨rfl, fun hm => ?_⟩
  rcases mem_append.mp hm with h | h
  · exact not_mem_number hn (by decide) rfl h
  · rcases mem_cons.mp h with h | h
    · exact absurd h (by decide)
    · exact not_mem_number hk (by decide) rfl h

end GdbStub
