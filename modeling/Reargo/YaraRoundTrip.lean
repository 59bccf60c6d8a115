import Reargo.YaraPrinting

/-!
# Reading printed rules

Rules are printed in the documented syntax, with nested conjunctions and disjunctions in
brackets, and parsed back.
-/
namespace YaraLite

open List

def printQuantifier : OfQuantifier → Piece
  | .any => .word "any".toList
  | .all => .word "all".toList
  | .atLeast n => .number n

/-- A conjunction or a disjunction inside another expression goes in brackets. -/
def operand (e : Expr) (ps : List Piece) : List Piece :=
  match e with
  | .and _ | .or _ => .lparen :: (ps ++ [.rparen])
  | _ => ps

mutual

def printExpr : Expr → List Piece
  | .ref n => [.stringRef n]
  | .not e => .word "not".toList :: operand e (printExpr e)
  | .and parts => printParts "and".toList parts
  | .or parts => printParts "or".toList parts
  | .ofThem q => [printQuantifier q, .word "of".toList, .word "them".toList]
  | .literal value => [.word (if value then "true".toList else "false".toList)]

def printParts (word : Text) : List Expr → List Piece
  | [] => []
  | e :: es =>
    match es with
    | [] => operand e (printExpr e)
    | _ :: _ => operand e (printExpr e) ++ .word word :: printParts word es

end

/-- Conditions that the syntax can write. -/
inductive Printable : Expr → Prop
  | ref {n : Text} (hn : IsName n) : Printable (.ref n)
  | not {e : Expr} (he : Printable e) : Printable (.not e)
  | and {parts : List Expr} (htwo : 2 ≤ parts.length) (hparts : ∀ p ∈ parts, Printable p) :
      Printable (.and parts)
  | or {parts : List Expr} (htwo : 2 ≤ parts.length) (hparts : ∀ p ∈ parts, Printable p) :
      Printable (.or parts)
  | any : Printable (.ofThem .any)
  | all : Printable (.ofThem .all)
  | atLeast {n : ℕ} (hn : n < 2 ^ 64) : Printable (.ofThem (.atLeast n))
  | literal (value : Bool) : Printable (.literal value)

def tokens (ps : List Piece) : List Token := ps.map (Piece.token fitOrZero)

@[simp] theorem tokens_cons (p : Piece) (ps : List Piece) :
    tokens (p :: ps) = p.token fitOrZero :: tokens ps := rfl

@[simp] theorem tokens_nil : tokens [] = [] := rfl
@[simp] theorem tokens_append (ps qs : List Piece) :
    tokens (ps ++ qs) = tokens ps ++ tokens qs := map_append

@[simp] theorem tokens_length (ps : List Piece) : (tokens ps).length = ps.length :=
  length_map _

section Conditions

variable {word : Text} {parsePart : Parser Expr} {e : Expr} {parts : List Expr} {k fuel : ℕ}
  {ts rest : List Token}

theorem parseParts_single (hpart : parsePart ts = .ok (e, rest))
    (hrest : rest.head? ≠ some (.ident word)) :
    parseParts word parsePart (fuel + 1) ts = .ok ([e], rest) := by
  simp [parseParts, hpart, hrest, bind, Except.bind]

theorem parseParts_more (hpart : parsePart ts = .ok (e, .ident word :: rest)) :
    parseParts word parsePart (fuel + 1) ts =
      (parseParts word parsePart fuel rest).map fun r => (e :: r.1, r.2) := by
  simp only [parseParts, hpart, bind, Except.bind, head?_cons, tail_cons, if_true]
  cases parseParts word parsePart fuel rest <;> rfl

theorem parseParts_print (follows : List Token → Prop) (fuel : ℕ) (hne : parts ≠ [])
    (hpart : ∀ e ∈ parts, ∀ rest, follows rest →
      parsePart (tokens (operand e (printExpr e)) ++ rest) = .ok (e, rest))
    (hword : ∀ ts, follows (.ident word :: ts)) (hfollows : follows rest)
    (hrest : rest.head? ≠ some (.ident word)) (hfuel : parts.length ≤ fuel) :
    parseParts word parsePart fuel (tokens (printParts word parts) ++ rest) =
      .ok (parts, rest) := by
  induction parts generalizing fuel with
  | nil => exact absurd rfl hne
  | cons e es ih =>
    obtain ⟨fuel, rfl⟩ : ∃ f, fuel = f + 1 := ⟨fuel - 1, by simp at hfuel; omega⟩
    cases es with
    | nil =>
      rw [printParts]
      exact parseParts_single (hpart e (by simp) rest hfollows) hrest
    | cons e' es =>
      have hfirst := hpart e (by simp)
        (.ident word :: (tokens (printParts word (e' :: es)) ++ rest)) (hword _)
      have hothers := @ih fuel (by simp)
        (fun p hp => hpart p (mem_cons_of_mem e hp)) (by simpa using hfuel)
      have hprint : tokens (printParts word (e :: e' :: es)) ++ rest =
          tokens (operand e (printExpr e)) ++
            .ident word :: (tokens (printParts word (e' :: es)) ++ rest) := by
        rw [printParts]
        simp [Piece.token]
      rw [hprint, parseParts_more hfirst, hothers]
      rfl

theorem printParts_length (word : Text) (parts : List Expr) :
    parts.length ≤ (printParts word parts).length + 1 := by
  induction parts with
  | nil => simp
  | cons e es ih =>
    cases es with
    | nil => simp
    | cons e' es =>
      rw [printParts]
      simp only [length_append, length_cons] at ih ⊢
      omega

theorem operand_length (word : Text) (hmem : e ∈ parts) :
    (operand e (printExpr e)).length ≤ (printParts word parts).length := by
  induction parts with
  | nil => simp at hmem
  | cons a es ih =>
    cases es with
    | nil =>
      rw [mem_singleton.mp hmem, printParts]
    | cons e' es =>
      rw [printParts]
      simp only [length_append, length_cons]
      rcases mem_cons.mp hmem with rfl | hmem
      · omega
      · have := ih hmem
        omega

def EndsAnd (rest : List Token) : Prop := rest.head? ≠ some (.ident "and".toList)

def EndsOr (rest : List Token) : Prop :=
  EndsAnd rest ∧ rest.head? ≠ some (.ident "or".toList)

def ReadsOperand (k : ℕ) (e : Expr) : Prop :=
  ∀ rest, parseNot (parseOr k) (tokens (operand e (printExpr e)) ++ rest) = .ok (e, rest)

theorem parseAnd_print (hne : parts ≠ []) (hparts : ∀ p ∈ parts, ReadsOperand k p)
    (hrest : EndsAnd rest) :
    parseAnd (parseOr k) (tokens (printParts "and".toList parts) ++ rest) =
      .ok (joinParts .and parts, rest) := by
  have hread := parseParts_print (fun _ => True)
    ((tokens (printParts "and".toList parts) ++ rest).length + 1) hne
    (fun e he rest _ => hparts e he rest) (fun _ => trivial) trivial hrest
    (by
      have := printParts_length "and".toList parts
      simp only [length_append, tokens_length]
      omega)
  simp only [parseAnd, hread, bind, Except.bind]

theorem parseAnd_operand (he : ReadsOperand k e) (hrest : EndsAnd rest) :
    parseAnd (parseOr k) (tokens (operand e (printExpr e)) ++ rest) = .ok (e, rest) := by
  have hread := @parseAnd_print [e] _ _ (by simp) (by simpa using he) hrest
  rw [printParts] at hread
  exact hread

theorem parseOr_single (hread : parseAnd (parseOr k) ts = .ok (e, rest)) (hrest : EndsOr rest) :
    parseOr (k + 1) ts = .ok (e, rest) := by
  simp only [parseOr, parseParts_single hread hrest.2, bind, Except.bind]
  rfl

theorem joinParts_two (join : List Expr → Expr) (htwo : 2 ≤ parts.length) :
    joinParts join parts = join parts := by
  match parts, htwo with
  | _ :: _ :: _, _ => rfl

theorem parseOr_and (htwo : 2 ≤ parts.length) (hparts : ∀ p ∈ parts, ReadsOperand k p)
    (hrest : EndsOr rest) :
    parseOr (k + 1) (tokens (printExpr (.and parts)) ++ rest) = .ok (.and parts, rest) := by
  have hne : parts ≠ [] := by
    rintro rfl
    simp at htwo
  have hread := parseAnd_print hne hparts hrest.1
  rw [joinParts_two .and htwo] at hread
  rw [printExpr]
  exact parseOr_single hread hrest

theorem parseOr_or (htwo : 2 ≤ parts.length) (hparts : ∀ p ∈ parts, ReadsOperand k p)
    (hrest : EndsOr rest) :
    parseOr (k + 1) (tokens (printExpr (.or parts)) ++ rest) = .ok (.or parts, rest) := by
  have hne : parts ≠ [] := by
    rintro rfl
    simp at htwo
  have hread := parseParts_print EndsAnd
    ((tokens (printParts "or".toList parts) ++ rest).length + 1) hne
    (fun e he rest hend => parseAnd_operand (hparts e he) hend)
    (fun ts => by simp [EndsAnd]) hrest.1 hrest.2
    (by
      have := printParts_length "or".toList parts
      simp only [length_append, tokens_length]
      omega)
  rw [printExpr]
  simp only [parseOr, hread, bind, Except.bind, joinParts_two .or htwo]

theorem parseOr_atom (hatom : operand e (printExpr e) = printExpr e) (he : ReadsOperand k e)
    (hrest : EndsOr rest) : parseOr (k + 1) (tokens (printExpr e) ++ rest) = .ok (e, rest) := by
  have hread := parseAnd_operand he hrest.1
  rw [hatom] at hread
  exact parseOr_single hread hrest

theorem parseNot_primary {p : Parser Expr} {t : Token} (ht : t ≠ .ident "not".toList) :
    parseNot p (t :: ts) = parsePrimary p (t :: ts) := by
  rw [parseNot, if_neg ht]

theorem ofThem_read (q : OfQuantifier) :
    ofThem q (.ident "of".toList :: .ident "them".toList :: rest) = .ok (.ofThem q, rest) := by
  simp [ofThem, expectIdent, bump, bind, Except.bind]

theorem readsOperand_brackets (hbrackets : operand e (printExpr e) =
      .lparen :: (printExpr e ++ [.rparen]))
    (he : ∀ rest, EndsOr rest → parseOr k (tokens (printExpr e) ++ rest) = .ok (e, rest)) :
    ReadsOperand k e := by
  intro rest
  have hinner := he (.rparen :: rest) (by simp [EndsOr, EndsAnd])
  rw [hbrackets]
  simp only [tokens_cons, tokens_append, tokens_nil, Piece.token, append_assoc,
    cons_append, nil_append]
  rw [parseNot_primary (by simp), parsePrimary]
  simp [hinner, expect, bump, bind, Except.bind]

theorem readsOperand (he : Printable e) (hk : (operand e (printExpr e)).length ≤ k + 1) :
    ReadsOperand k e := by
  induction he generalizing k with
  | ref _ =>
    intro rest
    simp [operand, printExpr, Piece.token, parseNot, parsePrimary]
  | @not e _ ih =>
    have hprint : operand (.not e) (printExpr (.not e)) =
        .word "not".toList :: operand e (printExpr e) := rfl
    rw [hprint, length_cons] at hk
    have hinner := ih (k := k) (by omega)
    intro rest
    rw [hprint, tokens_cons, Piece.token, cons_append, parseNot, if_pos rfl, hinner rest]
    rfl
  | @and parts htwo _ ih =>
    simp only [operand, printExpr, length_cons, length_append, length_nil] at hk
    obtain ⟨k, rfl⟩ : ∃ i, k = i + 1 := ⟨k - 1, by
      have := printParts_length "and".toList parts
      omega⟩
    refine readsOperand_brackets rfl fun rest hrest => parseOr_and htwo (fun p hp => ?_) hrest
    exact ih p hp (by have := operand_length "and".toList hp; omega)
  | @or parts htwo _ ih =>
    simp only [operand, printExpr, length_cons, length_append, length_nil] at hk
    obtain ⟨k, rfl⟩ : ∃ i, k = i + 1 := ⟨k - 1, by
      have := printParts_length "or".toList parts
      omega⟩
    refine readsOperand_brackets rfl fun rest hrest => parseOr_or htwo (fun p hp => ?_) hrest
    exact ih p hp (by have := operand_length "or".toList hp; omega)
  | any =>
    intro rest
    exact ofThem_read .any
  | all =>
    intro rest
    exact ofThem_read .all
  | @atLeast n hn =>
    intro rest
    have hfit : fitOrZero n = n := if_pos hn
    have hread := @ofThem_read rest (.atLeast n)
    simpa [operand, printExpr, printQuantifier, Piece.token, hfit, parseNot, parsePrimary]
      using hread
  | literal value =>
    intro rest
    cases value <;> rfl

theorem parseOr_print (he : Printable e) (hk : (printExpr e).length < k) (hrest : EndsOr rest) :
    parseOr k (tokens (printExpr e) ++ rest) = .ok (e, rest) := by
  obtain ⟨k, rfl⟩ : ∃ i, k = i + 1 := ⟨k - 1, by omega⟩
  have hatom (hsame : operand e (printExpr e) = printExpr e) :
      parseOr (k + 1) (tokens (printExpr e) ++ rest) = .ok (e, rest) :=
    parseOr_atom hsame (readsOperand he (by rw [hsame]; omega)) hrest
  cases he with
  | @and parts htwo hparts =>
    rw [printExpr] at hk
    refine parseOr_and htwo (fun p hp => readsOperand (hparts p hp) ?_) hrest
    have := operand_length "and".toList hp
    omega
  | @or parts htwo hparts =>
    rw [printExpr] at hk
    refine parseOr_or htwo (fun p hp => readsOperand (hparts p hp) ?_) hrest
    have := operand_length "or".toList hp
    omega
  | ref _ => exact hatom rfl
  | not _ => exact hatom rfl
  | any => exact hatom rfl
  | all => exact hatom rfl
  | atLeast _ => exact hatom rfl
  | literal _ => exact hatom rfl

end Conditions

def printNocase (nocase : Bool) : List Piece := if nocase then [.word "nocase".toList] else []

inductive PrintsString : NamedString → List Piece → Prop
  | text (name : Text) (bytes : List UInt8) (nocase : Bool) :
      PrintsString ⟨name, .text bytes, nocase⟩
        (.stringRef name :: .eq :: .quoted bytes :: printNocase nocase)
  | hex (name : Text) {hs : List HexByte} {body : List UInt8} (nocase : Bool)
      (hbody : HexBody hs body) :
      PrintsString ⟨name, .hex hs, nocase⟩
        (.stringRef name :: .eq :: .hexBlock body :: printNocase nocase)

inductive PrintsStrings : List NamedString → List Piece → Prop
  | nil : PrintsStrings [] []
  | cons {s : NamedString} {ss : List NamedString} {ps qs : List Piece} (hs : PrintsString s ps)
      (hss : PrintsStrings ss qs) : PrintsStrings (s :: ss) (ps ++ qs)

/-- A rule without strings may leave their section out. -/
inductive PrintsSection : List NamedString → List Piece → Prop
  | none : PrintsSection [] []
  | some {ss : List NamedString} {ps : List Piece} (hss : PrintsStrings ss ps) :
      PrintsSection ss (.word "strings".toList :: .colon :: ps)

inductive PrintsRule : Rule → List Piece → Prop
  | rule (name : Text) {strings : List NamedString} (condition : Expr) {ps : List Piece}
      (hstrings : PrintsSection strings ps) :
      PrintsRule ⟨name, strings, condition⟩ (.word "rule".toList :: .word name :: .lbrace ::
          (ps ++ .word "condition".toList :: .colon :: (printExpr condition ++ [.rbrace])))

inductive PrintsRules : List Rule → List Piece → Prop
  | nil : PrintsRules [] []
  | cons {r : Rule} {rs : List Rule} {ps qs : List Piece} (hr : PrintsRule r ps)
      (hrs : PrintsRules rs qs) : PrintsRules (r :: rs) (ps ++ qs)

def Prints (rules : List Rule) (src : List UInt8) : Prop :=
  ∃ ps, PrintsRules rules ps ∧ Layout ps src

structure NamedString.IsPrintable (s : NamedString) : Prop where
  name : IsName s.name
  hex : ∀ hs, s.pattern = .hex hs → hs ≠ [] ∧ ∀ b ∈ hs, b.IsNibbled

structure Rule.IsPrintable (r : Rule) : Prop where
  name : IsName r.name
  strings : ∀ s ∈ r.strings, s.IsPrintable
  condition : Printable r.condition

/-- The pattern that a printed pattern is read back as. -/
def Pattern.reread : Pattern → Pattern
  | .text bytes => .text (intoBytes (bytes.map asChar))
  | .hex hs => .hex hs

def NamedString.reread (s : NamedString) : NamedString := { s with pattern := s.pattern.reread }

def Rule.reread (r : Rule) : Rule := { r with strings := r.strings.map NamedString.reread }

variable {ss : List NamedString}

section Rules

variable {rest : List Token}

def EndsModifiers (rest : List Token) : Prop :=
  (∃ name ts, rest = .stringRef name :: ts) ∨ ∃ ts, rest = .ident "condition".toList :: ts

theorem parseModifiers_end (h : EndsModifiers rest) (nocase : Bool) :
    parseModifiers nocase rest = .ok (nocase, rest) := by
  rcases h with ⟨name, ts, rfl⟩ | ⟨ts, rfl⟩
  · rfl
  · rfl

theorem parseModifiers_print (h : EndsModifiers rest) (nocase : Bool) :
    parseModifiers false (tokens (printNocase nocase) ++ rest) = .ok (nocase, rest) := by
  cases nocase with
  | false => exact parseModifiers_end h false
  | true => exact parseModifiers_end h true

variable {ps : List Piece}

theorem parseStringValue_print {s : NamedString} (hs : PrintsString s ps)
    (hok : s.IsPrintable) (hrest : EndsModifiers rest) :
    ∃ qs, ps = .stringRef s.name :: .eq :: qs ∧
      parseStringValue (tokens qs ++ rest) = .ok (s.pattern.reread, s.nocase, rest) := by
  cases hs with
  | text name bytes nocase =>
    refine ⟨_, rfl, ?_⟩
    have hmods := parseModifiers_print hrest nocase
    simp only [parseStringValue, tokens_cons, Piece.token, cons_append, bump, bind,
      Except.bind, hmods]
    rfl
  | @hex name hs body nocase hbody =>
    obtain ⟨hne, hn⟩ := hok.hex hs rfl
    refine ⟨_, rfl, ?_⟩
    have hmods := parseModifiers_print hrest nocase
    have hread := parseHexPattern_body hbody hn hne
    simp only [parseStringValue, tokens_cons, Piece.token, cons_append, bump, bind,
      Except.bind, hread, Except.map, Except.mapError, hmods]
    rfl

theorem endsModifiers_strings (h : PrintsStrings ss ps) (ts : List Token) :
    EndsModifiers (tokens ps ++ .ident "condition".toList :: ts) := by
  cases h with
  | nil => exact .inr ⟨ts, rfl⟩
  | cons hs _ =>
    refine .inl ?_
    cases hs with
    | text name bytes nocase => exact ⟨name, _, rfl⟩
    | hex name nocase hbody => exact ⟨name, _, rfl⟩

theorem printsStrings_length (h : PrintsStrings ss ps) : ss.length ≤ ps.length := by
  induction h with
  | nil => simp
  | @cons s ss ps qs hs _ ih =>
    have hone : 1 ≤ ps.length := by
      cases hs with
      | text name bytes nocase => exact Nat.succ_pos _
      | hex name nocase hbody => exact Nat.succ_pos _
    simp only [length_append, length_cons]
    omega

theorem parseStrings_print (h : PrintsStrings ss ps)
    (hok : ∀ s ∈ ss, s.IsPrintable) (ts : List Token) (fuel : ℕ) (hfuel : ss.length < fuel) :
    parseStrings fuel (tokens ps ++ .ident "condition".toList :: ts) =
      .ok (ss.map NamedString.reread, .ident "condition".toList :: ts) := by
  induction h generalizing fuel with
  | nil =>
    obtain ⟨fuel, rfl⟩ : ∃ f, fuel = f + 1 := ⟨fuel - 1, by omega⟩
    simp [parseStrings]
  | @cons s ss ps qs hs hss ih =>
    obtain ⟨fuel, rfl⟩ : ∃ f, fuel = f + 1 := ⟨fuel - 1, by omega⟩
    obtain ⟨vs, rfl, hvalue⟩ :=
      parseStringValue_print hs (hok s (by simp)) (endsModifiers_strings hss ts)
    have hothers := ih (fun t ht => hok t (mem_cons_of_mem s ht)) fuel (by simpa using hfuel)
    simp only [tokens_append, tokens_cons, Piece.token, cons_append, append_assoc,
      parseStrings, expect, bump, bind, Except.bind, if_true, hvalue, hothers]
    rfl

theorem parseBody_condition {e : Expr} (he : Printable e) (strings : List NamedString) (fuel : ℕ) :
    parseBody (fuel + 2) strings none (.ident "condition".toList :: .colon ::
        (tokens (printExpr e) ++ .rbrace :: rest)) = .ok ((strings, some e), rest) := by
  have hread := @parseOr_print e ((tokens (printExpr e) ++ .rbrace :: rest).length + 1)
    (.rbrace :: rest) he
    (by
      simp only [length_append, tokens_length]
      omega)
    (by simp [EndsOr, EndsAnd])
  have hmeta : Token.ident "condition".toList ≠ .ident "meta".toList := by decide
  have hstrings : Token.ident "condition".toList ≠ .ident "strings".toList := by decide
  rw [parseBody, if_neg (by simp), if_neg hmeta, if_neg hstrings, if_pos rfl]
  simp only [expect, bump, bind, Except.bind, if_true, hread, parseBody]

theorem parseBody_print {strings : List NamedString} {e : Expr}
    (h : PrintsSection strings ps) (hok : ∀ s ∈ strings, s.IsPrintable) (he : Printable e)
    (fuel : ℕ) :
    parseBody (fuel + 3) [] none (tokens ps ++ .ident "condition".toList :: .colon ::
        (tokens (printExpr e) ++ .rbrace :: rest)) =
      .ok ((strings.map NamedString.reread, some e), rest) := by
  cases h with
  | none => exact parseBody_condition he [] (fuel + 1)
  | @some _ ps hss =>
    have hlength := printsStrings_length hss
    generalize hts : Token.colon :: (tokens (printExpr e) ++ Token.rbrace :: rest) = ts
    have hread := parseStrings_print hss hok ts
      ((tokens ps ++ .ident "condition".toList :: ts).length + 1) (by
        simp only [length_append, tokens_length]
        omega)
    have hmeta : Token.ident "strings".toList ≠ .ident "meta".toList := by decide
    simp only [tokens_cons, Piece.token, cons_append]
    rw [parseBody, if_neg (by simp), if_neg hmeta, if_pos rfl]
    simp only [expect, bump, bind, Except.bind, if_true, hread]
    subst hts
    exact parseBody_condition he _ fuel

theorem parseRule_print {r : Rule} (h : PrintsRule r ps)
    (hok : r.IsPrintable) : parseRule (tokens ps ++ rest) = .ok (r.reread, rest) := by
  cases h with
  | @rule name strings condition ps hstrings =>
    have hrule : Token.ident "rule".toList ≠ .ident "private".toList ∧
        Token.ident "rule".toList ≠ .ident "global".toList := by decide
    have hbody := @parseBody_print rest _ _ _ hstrings hok.strings hok.condition
    generalize hts : tokens ps ++ .ident "condition".toList :: .colon ::
        (tokens (printExpr condition) ++ .rbrace :: rest) = ts at hbody
    have hlength : 2 ≤ ts.length := by
      rw [← hts]
      simp only [length_append, length_cons]
      omega
    obtain ⟨fuel, hfuel⟩ : ∃ f, ts.length + 1 = f + 3 := ⟨ts.length - 2, by omega⟩
    have hread := hbody fuel
    rw [← hfuel] at hread
    have hsplit : tokens (.word "rule".toList :: .word name :: .lbrace ::
        (ps ++ .word "condition".toList :: .colon :: (printExpr condition ++ [.rbrace]))) ++ rest =
        .ident "rule".toList :: .ident name :: .lbrace :: ts := by
      rw [← hts]
      simp [Piece.token]
    rw [hsplit]
    simp only [parseRule, skipQualifier, skipTags, List.head?_cons, Option.some.injEq, hrule,
      or_self, if_false, expectIdent, bump, bind, Except.bind, if_true, parseRuleName, expect,
      reduceCtorEq, hread]
    rfl

theorem parseAll_print {rs : List Rule} (h : PrintsRules rs ps)
    (hok : ∀ r ∈ rs, r.IsPrintable) (fuel : ℕ) (hfuel : rs.length ≤ fuel) :
    parseAll fuel (tokens ps) = .ok (rs.map Rule.reread) := by
  induction h generalizing fuel with
  | nil => simp [parseAll]
  | @cons r rs ps qs hr hrs ih =>
    obtain ⟨fuel, rfl⟩ : ∃ f, fuel = f + 1 := ⟨fuel - 1, by simp at hfuel; omega⟩
    have hread := @parseRule_print (tokens qs) _ _ hr (hok r (by simp))
    have hothers := ih (fun t ht => hok t (mem_cons_of_mem r ht)) fuel (by simpa using hfuel)
    obtain ⟨t, ts, hne⟩ : ∃ t ts, tokens ps ++ tokens qs = t :: ts := by
      cases hr
      exact ⟨_, _, rfl⟩
    rw [tokens_append]
    rw [hne] at hread ⊢
    simp only [parseAll, hread, bind, Except.bind, hothers, map_cons]

end Rules

section Reading

variable {ps qs : List Piece}

theorem reads_plain (hps : ∀ p ∈ ps, ∀ b, p.Reads b) (hqs : ∀ b, Reads b qs) (b : Bool) :
    Reads b (ps ++ qs) := by
  induction ps generalizing b with
  | nil => exact hqs b
  | cons p ps ih =>
    exact ⟨hps p (by simp) b, ih (fun q hq => hps q (mem_cons_of_mem p hq)) _⟩

theorem keyword_reads {s : Text} (hs : s ∈ ["rule", "strings", "condition", "nocase", "and", "or",
    "not", "any", "all", "of", "them", "true", "false"].map String.toList) (b : Bool) :
    (Piece.word s).Reads b := by
  have hnames : (["rule", "strings", "condition", "nocase", "and", "or", "not", "any", "all",
      "of", "them", "true", "false"].map String.toList).all checkName = true := by decide
  exact isName_of_checkName (all_eq_true.mp hnames s hs)

theorem operand_reads {e : Expr} (hps : ∀ p ∈ ps, ∀ b, p.Reads b) :
    ∀ p ∈ operand e ps, ∀ b, p.Reads b := by
  have hbrackets : ∀ p ∈ Piece.lparen :: (ps ++ [.rparen]), ∀ b, p.Reads b := by
    intro p hp b
    simp only [mem_cons, mem_append, not_mem_nil, or_false] at hp
    rcases hp with rfl | hp | rfl
    · trivial
    · exact hps p hp b
    · trivial
  cases e <;> first | exact hbrackets | exact hps

theorem printParts_reads {word : Text} {parts : List Expr} (hword : ∀ b, (Piece.word word).Reads b)
    (hparts : ∀ e ∈ parts, ∀ p ∈ printExpr e, ∀ b, p.Reads b) :
    ∀ p ∈ printParts word parts, ∀ b, p.Reads b := by
  induction parts with
  | nil => simp [printParts]
  | cons e es ih =>
    have hfirst := operand_reads (e := e) (hparts e (by simp))
    have hothers := ih fun e' he' => hparts e' (mem_cons_of_mem e he')
    cases es with
    | nil =>
      rw [printParts]
      exact hfirst
    | cons e' es =>
      rw [printParts]
      intro p hp b
      rcases mem_append.mp hp with hp | hp
      · exact hfirst p hp b
      rcases mem_cons.mp hp with rfl | hp
      · exact hword b
      · exact hothers p hp b

theorem printExpr_reads {e : Expr} (he : Printable e) : ∀ p ∈ printExpr e, ∀ b, p.Reads b := by
  induction he with
  | ref hn =>
    intro p hp b
    rw [mem_singleton.mp hp]
    exact hn.chars
  | not _ ih =>
    rw [printExpr]
    intro p hp b
    rcases mem_cons.mp hp with rfl | hp
    · exact keyword_reads (by decide) b
    · exact operand_reads ih p hp b
  | and _ _ ih => exact printParts_reads (keyword_reads (by decide)) ih
  | or _ _ ih => exact printParts_reads (keyword_reads (by decide)) ih
  | any =>
    intro p hp b
    simp only [printExpr, printQuantifier, mem_cons, not_mem_nil, or_false] at hp
    rcases hp with rfl | rfl | rfl <;> exact keyword_reads (by decide) b
  | all =>
    intro p hp b
    simp only [printExpr, printQuantifier, mem_cons, not_mem_nil, or_false] at hp
    rcases hp with rfl | rfl | rfl <;> exact keyword_reads (by decide) b
  | atLeast _ =>
    intro p hp b
    simp only [printExpr, printQuantifier, mem_cons, not_mem_nil, or_false] at hp
    rcases hp with rfl | rfl | rfl
    · trivial
    · exact keyword_reads (by decide) b
    · exact keyword_reads (by decide) b
  | literal value =>
    intro p hp b
    rw [mem_singleton.mp hp]
    cases value <;> exact keyword_reads (by decide) b

theorem printNocase_reads (nocase : Bool) : ∀ p ∈ printNocase nocase, ∀ b, p.Reads b := by
  intro p hp b
  cases nocase with
  | false => simp [printNocase] at hp
  | true =>
    rw [mem_singleton.mp hp]
    exact keyword_reads (by decide) b

theorem printsString_reads {s : NamedString} (h : PrintsString s ps) (hok : s.IsPrintable)
    (hqs : ∀ b, Reads b qs) (b : Bool) : Reads b (ps ++ qs) := by
  cases h with
  | text name bytes nocase =>
    exact ⟨hok.name.chars, trivial, trivial, reads_plain (printNocase_reads nocase) hqs _⟩
  | @hex name hs body nocase hbody =>
    obtain ⟨-, hn⟩ := hok.hex hs rfl
    exact ⟨hok.name.chars, trivial, ⟨rfl, hexBody_braces hbody hn⟩,
      reads_plain (printNocase_reads nocase) hqs _⟩

theorem printsStrings_reads (h : PrintsStrings ss ps)
    (hok : ∀ s ∈ ss, s.IsPrintable) (hqs : ∀ b, Reads b qs) (b : Bool) : Reads b (ps ++ qs) := by
  induction h generalizing b with
  | nil => exact hqs b
  | @cons s ss ps qs hs _ ih =>
    rw [append_assoc]
    exact printsString_reads hs (hok s (by simp)) (ih fun t ht => hok t (mem_cons_of_mem s ht)) b

theorem printsRule_reads {r : Rule} (h : PrintsRule r ps) (hok : r.IsPrintable)
    (hqs : ∀ b, Reads b qs) (b : Bool) : Reads b (ps ++ qs) := by
  cases h with
  | @rule name strings condition ps hstrings =>
    have hcondition (b : Bool) : Reads b (Piece.word "condition".toList :: .colon ::
        (printExpr condition ++ .rbrace :: qs)) :=
      ⟨keyword_reads (by decide) b, trivial,
        @reads_plain _ (.rbrace :: qs) (printExpr_reads hok.condition)
          (fun b => ⟨trivial, hqs _⟩) _⟩
    have hsections : Reads false (ps ++ Piece.word "condition".toList :: .colon ::
        (printExpr condition ++ .rbrace :: qs)) := by
      cases hstrings with
      | none => exact hcondition false
      | some hss =>
        exact ⟨keyword_reads (by decide) false, trivial,
          printsStrings_reads hss hok.strings hcondition _⟩
    have hrule : Reads b (Piece.word "rule".toList :: .word name :: .lbrace ::
        (ps ++ Piece.word "condition".toList :: .colon ::
          (printExpr condition ++ .rbrace :: qs))) :=
      ⟨keyword_reads (by decide) b, hok.name, by simp [Piece.Reads], hsections⟩
    simpa using hrule

theorem printsRules_reads {rs : List Rule} (h : PrintsRules rs ps)
    (hok : ∀ r ∈ rs, r.IsPrintable) (b : Bool) : Reads b ps := by
  induction h generalizing b with
  | nil => trivial
  | @cons r rs ps qs hr _ ih =>
    exact printsRule_reads hr (hok r (by simp)) (ih fun t ht => hok t (mem_cons_of_mem r ht)) b

end Reading

theorem printsRules_length {rs : List Rule} {ps : List Piece} (h : PrintsRules rs ps) :
    rs.length ≤ ps.length := by
  induction h with
  | nil => simp
  | @cons r rs ps qs hr _ ih =>
    have hone : 1 ≤ ps.length := by
      cases hr
      exact Nat.succ_pos _
    simp only [length_append, length_cons]
    omega

theorem parseRules_printed {rules : List Rule} {src : List UInt8}
    (hok : ∀ r ∈ rules, r.IsPrintable) (h : Prints rules src) :
    parseRules src = .ok (rules.map Rule.reread) := by
  obtain ⟨ps, hps, hlayout⟩ := h
  have hlex : tokenise fitOrZero [] src = .ok (tokens ps) := by
    have hread := @tokenise_layout fitOrZero [] _ _ hlayout (printsRules_reads hps hok _)
    exact hread
  have hparse := parseAll_print hps hok (tokens ps).length
    (by rw [tokens_length]; exact printsRules_length hps)
  simp only [parseRules, parseStored, hlex, Except.mapError, bind, Except.bind, hparse]

/-- A byte is reread as itself exactly when it is ASCII; any other becomes two. -/
theorem encode_asChar (b : UInt8) : (b < 128 → String.utf8EncodeChar (asChar b) = [b]) ∧
      (¬ b < 128 → (String.utf8EncodeChar (asChar b)).length = 2) := by
  revert b
  exact forall_byte (by decide +kernel)

theorem intoBytes_asChar_iff (bytes : List UInt8) :
    intoBytes (bytes.map asChar) = bytes ↔ ∀ b ∈ bytes, b < 128 := by
  have hlength (bytes : List UInt8) : bytes.length ≤ (intoBytes (bytes.map asChar)).length := by
    induction bytes with
    | nil => simp
    | cons b bytes ih =>
      have hpos := (encode_asChar b).2
      by_cases hb : b < 128
      · simpa [intoBytes, (encode_asChar b).1 hb] using ih
      · have := hpos hb
        simp only [intoBytes, map_cons, flatMap_cons, length_append, length_cons] at ih ⊢
        omega
  induction bytes with
  | nil => simp [intoBytes]
  | cons b bytes ih =>
    by_cases hb : b < 128
    · have hone := (encode_asChar b).1 hb
      simp only [intoBytes] at ih
      simp [intoBytes, hone, hb, ih]
    · have htwo := (encode_asChar b).2 hb
      refine iff_of_false (fun heq => ?_) (fun hall => hb (hall b (by simp)))
      have hsame := congrArg List.length heq
      have hrest := hlength bytes
      simp only [intoBytes, map_cons, flatMap_cons, length_append, length_cons] at hsame hrest
      omega

def AsciiTexts (rules : List Rule) : Prop :=
  ∀ r ∈ rules, ∀ s ∈ r.strings, ∀ bytes, s.pattern = .text bytes → ∀ b ∈ bytes, b < 128

theorem map_fixed_iff {α : Type*} {f : α → α} {l : List α} : l.map f = l ↔ ∀ a ∈ l, f a = a := by
  have hmap := map_inj_left (f := f) (g := id) (l := l)
  rwa [map_id] at hmap

theorem reread_iff (rules : List Rule) : rules.map Rule.reread = rules ↔ AsciiTexts rules := by
  have hpattern (s : NamedString) :
      s.reread = s ↔ ∀ bytes, s.pattern = .text bytes → ∀ b ∈ bytes, b < 128 := by
    obtain ⟨name, pattern, nocase⟩ := s
    cases pattern with
    | text bytes => simp [NamedString.reread, Pattern.reread, intoBytes_asChar_iff]
    | hex hs => simp [NamedString.reread, Pattern.reread]
  have hrule (r : Rule) : r.reread = r ↔ ∀ s ∈ r.strings, s.reread = s := by
    obtain ⟨name, strings, condition⟩ := r
    simp only [Rule.reread, Rule.mk.injEq, true_and, and_true]
    exact map_fixed_iff
  simp only [map_fixed_iff, hrule, hpattern, AsciiTexts]

/-- Rules are parsed back from any printing exactly when their text patterns are ASCII. -/
theorem parseRules_prints_iff {rules : List Rule} {src : List UInt8}
    (hok : ∀ r ∈ rules, r.IsPrintable) (h : Prints rules src) :
    parseRules src = .ok rules ↔ AsciiTexts rules := by
  rw [parseRules_printed hok h, Except.ok.injEq]
  exact reread_iff rules

/-- The pieces with one blank before each. -/
def spaced (ps : List Piece) : List UInt8 := ps.flatMap fun p => byte ' ' :: p.spelling

theorem layout_spaced (ps : List Piece) : Layout ps (spaced ps) := by
  induction ps with
  | nil => exact .done .nil
  | cons p ps ih =>
    have hspace : isIdentByte (byte ' ') = false := by decide
    refine .piece (.space (by decide) .nil) (fun _ b hb => ?_) ih
    cases ps with
    | nil => simp at hb
    | cons q ps =>
      have hb : byte ' ' = b := by simpa [spaced] using hb
      exact hb ▸ hspace

/-- A rule with a text and a hex pattern, and one connective inside another. -/
def sampleRule (bytes : List UInt8) : Rule where
  name := "r".toList
  strings := [⟨"a".toList, .text bytes, true⟩, ⟨"b".toList, .hex [.exact 0x4D, .highFixed 5], false⟩]
  condition := .and [.ref "a".toList, .or [.not (.ref "b".toList), .ofThem (.atLeast 2)]]

def samplePieces (bytes : List UInt8) : List Piece :=
  .word "rule".toList :: .word "r".toList :: .lbrace :: .word "strings".toList :: .colon ::
    .stringRef "a".toList :: .eq :: .quoted bytes :: .word "nocase".toList ::
    .stringRef "b".toList :: .eq :: .hexBlock [byte '4', byte 'D', byte ' ', byte '5', byte '?'] ::
    .word "condition".toList :: .colon :: (printExpr (sampleRule bytes).condition ++ [.rbrace])

theorem sampleRule_printable (bytes : List UInt8) : ∀ r ∈ [sampleRule bytes], r.IsPrintable := by
  have hr : IsName "r".toList := isName_of_checkName (by decide)
  have ha : IsName "a".toList := isName_of_checkName (by decide)
  have hb : IsName "b".toList := isName_of_checkName (by decide)
  have hstrings : ∀ s ∈ (sampleRule bytes).strings, s.IsPrintable := by
    intro s hs
    simp only [sampleRule, mem_cons, not_mem_nil, or_false] at hs
    rcases hs with rfl | rfl
    · exact ⟨ha, by simp⟩
    · refine ⟨hb, fun hs hhs => ?_⟩
      simp only [Pattern.hex.injEq] at hhs
      subst hhs
      simp [HexByte.IsNibbled]
  have hor : Printable (.or [.not (.ref "b".toList), .ofThem (.atLeast 2)]) := by
    refine .or le_rfl ?_
    simp only [mem_cons, not_mem_nil, or_false, forall_eq_or_imp, forall_eq]
    exact ⟨.not (.ref hb), .atLeast (by norm_num)⟩
  have hand : Printable (sampleRule bytes).condition := by
    refine .and le_rfl ?_
    simp only [mem_cons, not_mem_nil, or_false, forall_eq_or_imp, forall_eq]
    exact ⟨.ref ha, hor⟩
  intro r hmem
  rw [mem_singleton.mp hmem]
  exact ⟨hr, hstrings, hand⟩

theorem sampleRule_prints (bytes : List UInt8) :
    Prints [sampleRule bytes] (spaced (samplePieces bytes)) := by
  have hfirst : HexBody [.exact 0x4D, .highFixed 5]
      [byte '4', byte 'D', byte ' ', byte '5', byte '?'] :=
    .byte .nil (.byte (.space (c := byte ' ') (by decide) .nil) (.done .nil))
  have hrule : PrintsRule (sampleRule bytes) (samplePieces bytes) :=
    .rule "r".toList (sampleRule bytes).condition
      (.some (.cons (.text "a".toList bytes true) (.cons (.hex "b".toList false hfirst) .nil)))
  have hrules := PrintsRules.cons hrule .nil
  rw [append_nil] at hrules
  exact ⟨_, hrules, layout_spaced _⟩

def sampleText (printed : String) : List UInt8 :=
  (" rule r \x7b strings : $a = \"" ++ printed ++ "\" nocase $b = \x7b4D 5?\x7d condition : " ++
    "$a and ( not $b or 2 of them ) \x7d").toList.map byte

/-- Two ASCII bytes, one of them escaped. -/
theorem parseRules_prints_ascii :
    parseRules (sampleText "A\\x00") = .ok [sampleRule [0x41, 0]] := by
  have hsrc : sampleText "A\\x00" = spaced (samplePieces [0x41, 0]) := by decide +kernel
  refine (parseRules_prints_iff (sampleRule_printable _) (hsrc ▸ sampleRule_prints _)).mpr ?_
  intro r hr s hs bytes hbytes
  obtain rfl := mem_singleton.mp hr
  rcases mem_cons.mp hs with rfl | hs
  · cases hbytes
    decide +kernel
  · obtain rfl := mem_singleton.mp hs
    cases hbytes

/-- The byte `E9` is printed as an escape and read back as two bytes. -/
theorem high_byte_reread : (∀ r ∈ [sampleRule [0xE9]], r.IsPrintable) ∧
      Prints [sampleRule [0xE9]] (sampleText "\\xE9") ∧
      parseRules (sampleText "\\xE9") = .ok [sampleRule [0xC3, 0xA9]] ∧
      parseRules (sampleText "\\xE9") ≠ .ok [sampleRule [0xE9]] := by
  have hsrc : sampleText "\\xE9" = spaced (samplePieces [0xE9]) := by decide +kernel
  have hbytes : intoBytes ([(0xE9 : UInt8)].map asChar) = [0xC3, 0xA9] := by decide +kernel
  have hread := parseRules_printed (sampleRule_printable _) (sampleRule_prints [0xE9])
  have hreread : (sampleRule [0xE9]).reread = sampleRule [0xC3, 0xA9] := by
    simp only [Rule.reread, sampleRule, map_cons, map_nil, NamedString.reread,
      Pattern.reread] at hbytes ⊢
    rw [hbytes]
  rw [map_singleton, hreread] at hread
  rw [hsrc]
  refine ⟨sampleRule_printable _, sampleRule_prints _, hread, ?_⟩
  rw [hread]
  simp [sampleRule]

end YaraLite
