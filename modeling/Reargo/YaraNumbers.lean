import Reargo.YaraSyntax

/-!
# Numbers as written

What becomes of a number that was read has no say in how a source text is parsed: storing the
numbers while lexing gives the rules as written with their numbers stored afterwards.
-/
namespace YaraLite

open List

section Store

variable (g : ℕ → ℕ)

def Token.store : Token → Token
  | .number n => .number (g n)
  | t => t

def Shown.store : Shown → Shown
  | .token t => .token (t.store g)
  | .chars s => .chars s

def ParseError.store : ParseError → ParseError
  | .unexpectedToken words shown => .unexpectedToken words (shown.map (Shown.store g))
  | .badHexByte words shown => .badHexByte words (shown.map (Shown.store g))
  | e => e

def Halt.store : Halt → Halt
  | .error e => .error (e.store g)
  | .fuel => .fuel

def OfQuantifier.store : OfQuantifier → OfQuantifier
  | .atLeast n => .atLeast (g n)
  | q => q

mutual

def Expr.store : Expr → Expr
  | .ref n => .ref n
  | .not e => .not e.store
  | .and parts => .and (storeParts parts)
  | .or parts => .or (storeParts parts)
  | .ofThem q => .ofThem (q.store g)
  | .literal value => .literal value

def storeParts : List Expr → List Expr
  | [] => []
  | e :: es => e.store :: storeParts es

end

def Rule.store (r : Rule) : Rule := { r with condition := r.condition.store g }

/-- A parser's result with its numbers stored, the value's own by `f`. -/
def storeResult {α β : Type} (f : α → β) : Except Halt α → Except Halt β
  | .ok a => .ok (f a)
  | .error e => .error (e.store g)

/-- The value and the tokens left. -/
def storeBoth {α β : Type} (f : α → β) (r : α × List Token) : β × List Token :=
  (f r.1, r.2.map (Token.store g))

end Store

section Parsing

variable {g : ℕ → ℕ} {α β γ δ : Type} {t : Token}

@[simp] theorem storeResult_ok (f : α → β) (a : α) :
    storeResult g f (.ok a) = .ok (f a) := rfl

@[simp] theorem storeResult_error (f : α → β) (e : Halt) :
    storeResult g f (.error e) = .error (e.store g) := rfl

@[simp] theorem halt_store_error (e : ParseError) : (Halt.error e).store g = .error (e.store g) :=
  rfl

@[simp] theorem halt_store_fuel : Halt.fuel.store g = .fuel := rfl
@[simp] theorem error_store_eof : ParseError.unexpectedEof.store g = .unexpectedEof := rfl

theorem unexpected_store (words : String) (t : Token) :
    (unexpected words t).store g = unexpected words (t.store g) := rfl

/-- Two computations in a row store their numbers when each of them does. -/
theorem bind_store {h : α → γ} {f : β → δ} {x : Except Halt α} {x' : Except Halt γ}
    {k : α → Except Halt β} {k' : γ → Except Halt δ} (hx : x' = storeResult g h x)
    (hk : ∀ a, k' (h a) = storeResult g f (k a)) : (x' >>= k') = storeResult g f (x >>= k) := by
  subst hx
  cases x with
  | error e => rfl
  | ok a => exact hk a

theorem store_eq_iff (want : Token) (hwant : ∀ n, want ≠ .number n) :
    t.store g = want ↔ t = want := by
  cases t with
  | number n => exact iff_of_false (Ne.symm (hwant (g n))) (Ne.symm (hwant n))
  | _ => rfl

theorem head_store_iff {ts : List Token} (want : Token) (hwant : ∀ n, want ≠ .number n) :
    (ts.map (Token.store g)).head? = some want ↔ ts.head? = some want := by
  cases ts with
  | nil => simp
  | cons t ts => simpa using store_eq_iff _ hwant

theorem bump_store (ts : List Token) :
    bump (ts.map (Token.store g)) = storeResult g (storeBoth g (Token.store g)) (bump ts) := by
  cases ts <;> rfl

theorem expectIdent_store (want : Text) (ts : List Token) :
    expectIdent want (ts.map (Token.store g)) =
      storeResult g (List.map (Token.store g)) (expectIdent want ts) := by
  refine bind_store (bump_store ts) fun ⟨t, ts⟩ => ?_
  simp only [storeBoth, store_eq_iff (.ident want) (by simp)]
  split <;> rfl

theorem expect_store {want : Token} (hwant : ∀ n, want ≠ .number n) (ts : List Token) :
    expect want (ts.map (Token.store g)) =
      storeResult g (List.map (Token.store g)) (expect want ts) := by
  refine bind_store (bump_store ts) fun ⟨t, ts⟩ => ?_
  have hsame : want.store g = want := (store_eq_iff _ hwant).mpr rfl
  simp only [storeBoth, store_eq_iff _ hwant]
  split
  · rfl
  · simp [ParseError.store, Shown.store, hsame]

theorem parseModifiers_store (nocase : Bool) (ts : List Token) :
    parseModifiers nocase (ts.map (Token.store g)) =
      storeResult g (storeBoth g id) (parseModifiers nocase ts) := by
  induction ts generalizing nocase with
  | nil => rfl
  | cons t ts ih =>
    cases t with
    | ident s =>
      simp only [map_cons, Token.store, parseModifiers, ih]
      split_ifs <;> rfl
    | _ => rfl

/-- Of two computations in a row the first that fails gives the error. -/
theorem bind_error {ε : Type} {x : Except ε α} {k : α → Except ε β} {e : ε}
    (h : (x >>= k) = .error e) : x = .error e ∨ ∃ a, x = .ok a ∧ k a = .error e := by
  cases x with
  | error e' =>
    cases h
    exact .inl rfl
  | ok a => exact .inr ⟨a, rfl, h⟩

theorem map_error {ε : Type} {x : Except ε α} {f : α → β} {e : ε} (h : x.map f = .error e) :
    x = .error e := by
  cases x with
  | error e' =>
    cases h
    rfl
  | ok a => cases h

variable {e : ParseError} {body : List UInt8}

theorem hexVal_store {b : UInt8} (h : hexVal b = .error e) : e.store g = e := by
  simp only [hexVal] at h
  split_ifs at h
  cases h
  rfl

theorem parseHexByte_store {hi lo : UInt8} (h : parseHexByte hi lo = .error e) : e.store g = e := by
  simp only [parseHexByte] at h
  split_ifs at h
  · exact hexVal_store (map_error h)
  · exact hexVal_store (map_error h)
  · rcases bind_error h with h | ⟨a, -, h⟩
    · exact hexVal_store h
    rcases bind_error h with h | ⟨b, -, h⟩
    · exact hexVal_store h
    · cases h

theorem parseHexBytes_store (h : parseHexBytes body = .error e) : e.store g = e := by
  fun_induction parseHexBytes body with
  | case1 => cases h
  | case2 c rest hc ih => exact ih h
  | case3 c rest hc hslash hlen ih => exact ih h
  | case4 c => cases h; rfl
  | case5 c hc lo rest hslash ih =>
    rcases bind_error h with h | ⟨b, -, h⟩
    · exact parseHexByte_store h
    rcases bind_error h with h | ⟨hs, -, h⟩
    · exact ih h
    · cases h

theorem parseHexPattern_store (h : parseHexPattern body = .error e) : e.store g = e := by
  rcases bind_error h with h | ⟨hs, -, h⟩
  · exact parseHexBytes_store h
  split at h
  · cases h; rfl
  · cases h

/-- What a string's value becomes: its tokens' numbers stored. -/
def storeValue (g : ℕ → ℕ) (v : Pattern × Bool × List Token) : Pattern × Bool × List Token :=
  (v.1, v.2.1, v.2.2.map (Token.store g))

theorem parseStringValue_store (ts : List Token) : parseStringValue (ts.map (Token.store g)) =
      storeResult g (storeValue g) (parseStringValue ts) := by
  refine bind_store (bump_store ts) fun ⟨t, ts⟩ => ?_
  have hmods := parseModifiers_store (g := g) false ts
  cases t with
  | quotedString s =>
    exact bind_store (h := id) rfl fun pattern => bind_store hmods fun ⟨nocase, ts⟩ => rfl
  | hexBlock body =>
    refine bind_store (h := id) ?_ fun pattern => bind_store hmods fun ⟨nocase, ts⟩ => rfl
    cases hbody : parseHexPattern body with
    | ok hs => rfl
    | error e =>
      have hsame := parseHexPattern_store (g := g) hbody
      simp [Except.map, Except.mapError, hsame]
  | _ => rfl

theorem parseStrings_store (fuel : ℕ) (ts : List Token) :
    parseStrings fuel (ts.map (Token.store g)) =
      storeResult g (storeBoth g id) (parseStrings fuel ts) := by
  induction fuel generalizing ts with
  | zero => rfl
  | succ fuel ih =>
    cases ts with
    | nil => rfl
    | cons t ts =>
      cases t with
      | stringRef name =>
        simp only [map_cons, Token.store, parseStrings]
        refine bind_store (expect_store (by simp) ts) fun ts => ?_
        refine bind_store (parseStringValue_store ts) fun ⟨pattern, nocase, ts⟩ => ?_
        exact bind_store (ih ts) fun ⟨out, ts⟩ => rfl
      | ident s =>
        simp only [map_cons, Token.store, parseStrings]
        split <;> rfl
      | _ => rfl

section Condition

variable {parseOr : Parser Expr}

theorem ofThem_store (q : OfQuantifier) (ts : List Token) :
    ofThem (q.store g) (ts.map (Token.store g)) =
      storeResult g (storeBoth g (Expr.store g)) (ofThem q ts) := by
  refine bind_store (expectIdent_store _ ts) fun ts => ?_
  exact bind_store (expectIdent_store _ ts) fun ts => rfl

section

variable
  (hor : ∀ ts, parseOr (ts.map (Token.store g)) =
    storeResult g (storeBoth g (Expr.store g)) (parseOr ts))
  (ts : List Token)

include hor ts

theorem parsePrimary_store : parsePrimary parseOr (ts.map (Token.store g)) =
      storeResult g (storeBoth g (Expr.store g)) (parsePrimary parseOr ts) := by
  cases ts with
  | nil => rfl
  | cons t ts =>
    cases t with
    | lparen =>
      refine bind_store (hor ts) fun ⟨e, ts⟩ => ?_
      exact bind_store (expect_store (by simp) ts) fun ts => rfl
    | stringRef n => rfl
    | number n => exact ofThem_store (.atLeast n) ts
    | ident s =>
      simp only [map_cons, Token.store, parsePrimary]
      split_ifs
      · rfl
      · rfl
      · exact ofThem_store .any ts
      · exact ofThem_store .all ts
      · rfl
    | _ => rfl

theorem parseNot_store : parseNot parseOr (ts.map (Token.store g)) =
      storeResult g (storeBoth g (Expr.store g)) (parseNot parseOr ts) := by
  induction ts with
  | nil => exact parsePrimary_store hor []
  | cons t ts ih =>
    simp only [map_cons, parseNot, store_eq_iff (.ident "not".toList) (by simp)]
    split
    · exact bind_store ih fun ⟨e, ts⟩ => rfl
    · exact parsePrimary_store hor (t :: ts)

end

theorem storeParts_eq (parts : List Expr) : storeParts g parts = parts.map (Expr.store g) := by
  induction parts with
  | nil => rfl
  | cons e es ih => rw [storeParts, ih, map_cons]

theorem parseParts_store (word : Text) {parsePart : Parser Expr}
    (hpart : ∀ ts, parsePart (ts.map (Token.store g)) =
      storeResult g (storeBoth g (Expr.store g)) (parsePart ts)) (fuel : ℕ) (ts : List Token) :
    parseParts word parsePart fuel (ts.map (Token.store g)) =
      storeResult g (storeBoth g (List.map (Expr.store g))) (parseParts word parsePart fuel ts) := by
  induction fuel generalizing ts with
  | zero => rfl
  | succ fuel ih =>
    refine bind_store (hpart ts) fun ⟨e, ts⟩ => ?_
    simp only [storeBoth, head_store_iff (.ident word) (by simp), ← map_tail]
    split
    · exact bind_store (ih ts.tail) fun ⟨es, ts⟩ => rfl
    · rfl

theorem joinParts_store {join : List Expr → Expr}
    (hjoin : ∀ es, (join es).store g = join (es.map (Expr.store g))) (es : List Expr) :
    joinParts join (es.map (Expr.store g)) = (joinParts join es).store g := by
  match es with
  | [] => exact (hjoin []).symm
  | [e] => rfl
  | e :: e' :: es => exact (hjoin (e :: e' :: es)).symm

theorem and_store (es : List Expr) : (Expr.and es).store g = .and (es.map (Expr.store g)) := by
  rw [Expr.store, storeParts_eq]

theorem or_store (es : List Expr) : (Expr.or es).store g = .or (es.map (Expr.store g)) := by
  rw [Expr.store, storeParts_eq]

theorem parseAnd_store (hor : ∀ ts, parseOr (ts.map (Token.store g)) =
      storeResult g (storeBoth g (Expr.store g)) (parseOr ts)) (ts : List Token) :
    parseAnd parseOr (ts.map (Token.store g)) =
      storeResult g (storeBoth g (Expr.store g)) (parseAnd parseOr ts) := by
  simp only [parseAnd, length_map]
  refine bind_store (parseParts_store _ (parseNot_store hor) _ ts) fun ⟨parts, ts⟩ => ?_
  simp [storeBoth, joinParts_store and_store]

theorem parseOr_store (fuel : ℕ) (ts : List Token) :
    YaraLite.parseOr fuel (ts.map (Token.store g)) =
      storeResult g (storeBoth g (Expr.store g)) (YaraLite.parseOr fuel ts) := by
  induction fuel generalizing ts with
  | zero => rfl
  | succ fuel ih =>
    simp only [YaraLite.parseOr, length_map]
    refine bind_store (parseParts_store _ (parseAnd_store ih) _ ts) fun ⟨parts, ts⟩ => ?_
    simp [storeBoth, joinParts_store or_store]

end Condition

theorem skipMeta_store (ts : List Token) :
    skipMeta (ts.map (Token.store g)) = (skipMeta ts).map (Token.store g) := by
  induction ts with
  | nil => rfl
  | cons t ts ih =>
    simp only [map_cons, skipMeta, store_eq_iff (.ident "strings".toList) (by simp),
      store_eq_iff (.ident "condition".toList) (by simp),
      store_eq_iff .rbrace (by simp), ih]
    split <;> rfl

theorem skipQualifier_store (ts : List Token) :
    skipQualifier (ts.map (Token.store g)) = (skipQualifier ts).map (Token.store g) := by
  simp only [skipQualifier, head_store_iff (.ident "private".toList) (by simp),
    head_store_iff (.ident "global".toList) (by simp), ← map_tail]
  split <;> rfl

theorem skipIdents_store (ts : List Token) :
    skipIdents (ts.map (Token.store g)) = (skipIdents ts).map (Token.store g) := by
  induction ts with
  | nil => rfl
  | cons t ts ih =>
    cases t with
    | ident s => exact ih
    | _ => rfl

theorem skipTags_store (ts : List Token) :
    skipTags (ts.map (Token.store g)) = (skipTags ts).map (Token.store g) := by
  simp only [skipTags, head_store_iff .colon (by simp), ← map_tail, skipIdents_store]
  split <;> rfl

/-- The sections read so far, the condition's numbers stored. -/
def storeSections (g : ℕ → ℕ) (s : List NamedString × Option Expr) :
    List NamedString × Option Expr :=
  (s.1, s.2.map (Expr.store g))

theorem parseBody_store (fuel : ℕ) (strings : List NamedString) (condition : Option Expr)
    (ts : List Token) :
    parseBody fuel strings (condition.map (Expr.store g)) (ts.map (Token.store g)) =
      storeResult g (storeBoth g (storeSections g)) (parseBody fuel strings condition ts) := by
  induction fuel generalizing strings condition ts with
  | zero => rfl
  | succ fuel ih =>
    cases ts with
    | nil => rfl
    | cons t ts =>
      simp only [map_cons, parseBody, store_eq_iff (.ident "meta".toList) (by simp),
        store_eq_iff (.ident "strings".toList) (by simp),
        store_eq_iff (.ident "condition".toList) (by simp),
        store_eq_iff .rbrace (by simp)]
      split_ifs
      · rfl
      · refine bind_store (expect_store (by simp) ts) fun ts => ?_
        rw [skipMeta_store]
        exact ih strings condition (skipMeta ts)
      · refine bind_store (expect_store (by simp) ts) fun ts => ?_
        rw [length_map]
        exact bind_store (parseStrings_store _ ts) fun ⟨ss, ts⟩ => ih ss condition ts
      · refine bind_store (expect_store (by simp) ts) fun ts => ?_
        rw [length_map]
        exact bind_store (parseOr_store _ ts) fun ⟨e, ts⟩ => ih strings (some e) ts
      · rw [storeResult_error, unexpected_store]

theorem parseRuleName_store (ts : List Token) : parseRuleName (ts.map (Token.store g)) =
      storeResult g (storeBoth g id) (parseRuleName ts) := by
  refine bind_store (bump_store ts) fun ⟨t, ts⟩ => ?_
  cases t <;> rfl

theorem parseRule_store (ts : List Token) : parseRule (ts.map (Token.store g)) =
      storeResult g (storeBoth g (Rule.store g)) (parseRule ts) := by
  simp only [parseRule, skipQualifier_store]
  refine bind_store (expectIdent_store _ _) fun ts => ?_
  refine bind_store (parseRuleName_store ts) fun ⟨name, ts⟩ => ?_
  simp only [storeBoth, id, skipTags_store]
  refine bind_store (expect_store (by simp) _) fun ts => ?_
  rw [length_map]
  refine bind_store (parseBody_store _ [] none ts) fun ⟨⟨strings, condition⟩, ts⟩ => ?_
  cases condition <;> rfl

theorem parseAll_store (fuel : ℕ) (ts : List Token) : parseAll fuel (ts.map (Token.store g)) =
      storeResult g (List.map (Rule.store g)) (parseAll fuel ts) := by
  induction fuel generalizing ts with
  | zero => cases ts <;> rfl
  | succ fuel ih =>
    cases ts with
    | nil => rfl
    | cons t ts =>
      refine bind_store (parseRule_store (t :: ts)) fun ⟨rule, ts⟩ => ?_
      exact bind_store (ih ts) fun rules => rfl

theorem getLast_store_iff (out : List Token) :
    (out.map (Token.store g)).getLast? = some .eq ↔ out.getLast? = some .eq := by
  rw [getLast?_map]
  cases out.getLast? with
  | none => simp
  | some t => simpa using store_eq_iff .eq (by simp)

variable {src : List UInt8}

theorem readHexBlock_token {depth : ℕ} {rest : List UInt8}
    (h : readHexBlock depth body src = .ok (t, rest)) : t.store g = t := by
  fun_induction readHexBlock depth body src <;> simp_all
  obtain ⟨rfl, -⟩ := h
  rfl

theorem readQuoted_token {out : Text} {rest : List UInt8}
    (h : readQuoted out src = .ok (t, rest)) : t.store g = t := by
  fun_induction readQuoted out src <;> simp_all
  obtain ⟨rfl, -⟩ := h
  rfl

theorem punctuation_token {c : UInt8} (h : punctuation c = some t) : t.store g = t := by
  simp only [punctuation] at h
  split_ifs at h <;> cases h <;> rfl

theorem readHexBlock_error {depth : ℕ} (h : readHexBlock depth body src = .error e) :
    e.store g = e := by
  fun_induction readHexBlock depth body src <;> simp_all
  exact h ▸ rfl

theorem readQuoted_error {out : Text} (h : readQuoted out src = .error e) : e.store g = e := by
  fun_induction readQuoted out src <;> simp_all
  all_goals first | exact h ▸ rfl | (subst h; exact hexVal_store (by assumption))

theorem push_store {out : List Token} (t' : Token) (h : t'.store g = t) :
    (out ++ [t']).map (Token.store g) = out.map (Token.store g) ++ [t] := by
  simp [h]

theorem tokenise_store (out : List Token) (src : List UInt8) :
    tokenise g (out.map (Token.store g)) src =
      (tokenise id out src).map (List.map (Token.store g)) := by
  fun_induction tokenise id out src with
  | case1 out => simp [tokenise, Except.map]
  | case2 out c rest hspace ih => rw [tokenise, if_pos hspace, ih]
  | case3 out c rest hspace hline _ ih => rw [tokenise, if_neg hspace, if_pos hline, ih]
  | case4 out c rest hspace hline hblock _ ih =>
    rw [tokenise, if_neg hspace, if_neg hline, if_pos hblock, ih]
  | case5 out rest hlast e hread hspace hline hblock =>
    rw [tokenise, if_neg hspace, if_neg hline, if_neg hblock, if_pos rfl,
      if_pos ((getLast_store_iff out).mpr hlast)]
    split
    · next e' he => rw [hread] at he; cases he; rfl
    · next t rest' he => rw [hread] at he; cases he
  | case6 out rest hlast t rest' hread _ hspace hline hblock ih =>
    rw [push_store _ (readHexBlock_token hread)] at ih
    rw [tokenise, if_neg hspace, if_neg hline, if_neg hblock, if_pos rfl,
      if_pos ((getLast_store_iff out).mpr hlast)]
    split
    · next e' he => rw [hread] at he; cases he
    · next t' rest'' he => rw [hread] at he; cases he; exact ih
  | case7 out rest hlast hspace hline hblock ih =>
    rw [push_store .lbrace rfl] at ih
    rw [tokenise, if_neg hspace, if_neg hline, if_neg hblock, if_pos rfl,
      if_neg (fun h => hlast ((getLast_store_iff out).mp h))]
    exact ih
  | case8 out c rest hspace hline hblock hbrace t hpunct ih =>
    rw [push_store _ (punctuation_token hpunct)] at ih
    rw [tokenise, if_neg hspace, if_neg hline, if_neg hblock, if_neg hbrace]
    simp only [hpunct, ih]
  | case9 out rest _ hspace hline hblock hbrace hpunct ih =>
    rw [push_store (.stringRef _) rfl] at ih
    rw [tokenise, if_neg hspace, if_neg hline, if_neg hblock, if_neg hbrace]
    simp only [hpunct, if_true]
    exact ih
  | case10 out rest e hread hspace hline hblock hbrace hpunct hdollar =>
    rw [tokenise, if_neg hspace, if_neg hline, if_neg hblock, if_neg hbrace]
    simp only [hpunct, hdollar, if_false, if_true]
    split
    · next e' he => rw [hread] at he; cases he; rfl
    · next t rest' he => rw [hread] at he; cases he
  | case11 out rest t rest' hread _ hspace hline hblock hbrace hpunct hdollar ih =>
    rw [push_store _ (readQuoted_token hread)] at ih
    rw [tokenise, if_neg hspace, if_neg hline, if_neg hblock, if_neg hbrace]
    simp only [hpunct, hdollar, if_false, if_true]
    split
    · next e' he => rw [hread] at he; cases he
    · next t' rest'' he => rw [hread] at he; cases he; exact ih
  | case12 out c rest hspace hline hblock hbrace hpunct hdollar hquote hdigit _ ih =>
    rw [push_store (.number _) rfl] at ih
    rw [tokenise, if_neg hspace, if_neg hline, if_neg hblock, if_neg hbrace]
    simp only [hpunct, hdollar, hquote, hdigit, if_false, if_true]
    exact ih
  | case13 out c rest hspace hline hblock hbrace hpunct hdollar hquote hdigit hstart _ ih =>
    rw [push_store (.ident _) rfl] at ih
    rw [tokenise, if_neg hspace, if_neg hline, if_neg hblock, if_neg hbrace]
    simp only [hpunct, hdollar, hquote, hdigit, hstart, if_false, if_true]
    exact ih
  | case14 out c rest hspace hline hblock hbrace hpunct hdollar hquote hdigit hstart =>
    rw [tokenise, if_neg hspace, if_neg hline, if_neg hblock, if_neg hbrace]
    simp only [hpunct, hdollar, hquote, hdigit, hstart, if_false]
    rfl

theorem tokenise_error {out : List Token} (h : tokenise id out src = .error e) : e.store g = e := by
  fun_induction tokenise id out src with
  | case1 => cases h
  | case5 out rest hlast e' hread => cases h; exact readHexBlock_error hread
  | case10 out rest e' hread => cases h; exact readQuoted_error hread
  | case14 => cases h; rfl
  | _ => simp_all

theorem parseStored_store (src : List UInt8) :
    parseStored g src = storeResult g (List.map (Rule.store g)) (parseStored id src) := by
  have hlex := tokenise_store (g := g) [] src
  rw [map_nil] at hlex
  simp only [parseStored, hlex]
  cases htokens : tokenise id [] src with
  | ok ts =>
    simp only [Except.map, Except.mapError, bind, Except.bind, length_map]
    exact parseAll_store ts.length ts
  | error e =>
    have hsame := tokenise_error (g := g) htokens
    simp [Except.map, Except.mapError, bind, Except.bind, hsame]

theorem written_of_parsed {rules : List Rule} (h : parseRules src = .ok rules) :
    ∃ written, parseStored id src = .ok written ∧ rules = written.map (Rule.store fitOrZero) := by
  rw [parseRules, parseStored_store] at h
  cases hwritten : parseStored id src with
  | ok written =>
    rw [hwritten] at h
    cases h
    exact ⟨written, rfl, rfl⟩
  | error e =>
    rw [hwritten] at h
    cases h

end Parsing

end YaraLite
