import Reargo.PcodeModel

/-!
# Effect summaries

What a function does to the memory its parameters reach, as its callers take it over: a summary's
facts written as paths from a parameter or from the object returned, and those of a callee written
back as facts of the caller at one of its calls.
-/
namespace EffectSummaries

open PcodeModel List

/-- Where a pointer comes from. -/
inductive Src where
  | arg (i : ℕ)
  | ret (c : ℕ)
  | ld (l : ℕ)
  | stack
  | obj (i : ℕ)
  deriving DecidableEq, Repr, Inhabited

/-- The offset of an element of a buffer. -/
def elemOffset : ℤ := -2147483648

inductive StackEv where
  | vtable (vt : U64)
  | made (c j : ℕ)
  deriving DecidableEq, Repr, Inhabited

inductive FieldVal where
  | ptr (src : Src) (off : ℤ)
  | obj (ev : StackEv)
  | elem (src : Src)
  deriving DecidableEq, Repr, Inhabited

/-- An object a callee's effect names that the caller has no value for. -/
inductive ObjRef where
  | vtable (vt : U64)
  | retOf (f : U64)
  | fresh (n : ℕ)
  deriving DecidableEq, Repr, Inhabited

/-- What one function does with pointers. -/
structure Summary where
  callTargets : List U64
  args : List (ℕ × ℕ × Src × ℤ)
  stackEv : List (ℕ × ℕ × StackEv)
  madeVt : List (ℕ × ℕ × U64)
  vtStores : List (Src × ℤ × U64)
  fieldStores : List (Src × ℤ × Src × ℤ)
  fieldClobbers : List (Src × ℤ × ℤ)
  fieldNumbers : List (Src × ℤ × ℤ)
  stackFields : List (ℕ × ℕ × ℤ × FieldVal)
  elemArgs : List (ℕ × ℕ × Src)
  bufCopies : List (Src × Src)
  bufWrites : List Src
  bufEscapes : List (Src × ℤ)
  rets : List (Src × ℤ)
  retUnknown : Bool
  loads : List (Src × ℤ)
  objs : List ObjRef
  fresh : List ℕ
  globalCalls : List (ℕ × U64 × ℤ × ℕ × ℕ)
  triples : List (Src × ℤ)
  deriving DecidableEq, Repr

def Summary.empty : Summary :=
  ⟨[], [], [], [], [], [], [], [], [], [], [], [], [], [], false, [], [], [], [], []⟩

instance : Inhabited Summary := ⟨Summary.empty⟩

def maxEffects : ℕ := 256
def maxDepth : ℕ := 2

inductive Root where
  | arg (i : ℕ)
  | ret
  deriving DecidableEq, Repr, Inhabited

/-- A pointer reached from a root by loads at the offsets given. -/
structure Path where
  root : Root
  ks : List ℤ
  deriving DecidableEq, Repr, Inhabited

def Path.andThen (p : Path) (k : ℤ) : Option Path :=
  if p.ks.length < maxDepth then some { p with ks := p.ks ++ [k] } else none

/-- A value an effect stores. -/
inductive EVal where
  | ptr (p : Path) (off : ℤ)
  | elem (p : Path)
  | obj (o : ObjRef)
  | unk
  deriving DecidableEq, Repr, Inhabited

/-- What a function does to memory its parameters reach. -/
inductive Effect where
  | store (p : Path) (off : ℤ) (v : EVal)
  | clobber (p : Path) (off n : ℤ) (number : Bool)
  | vtable (p : Path) (off : ℤ) (vt : U64)
  | copy (p q : Path)
  | write (p : Path)
  | escape (p : Path) (k : ℤ)
  | triple (p : Path) (k : ℤ)
  deriving DecidableEq, Repr, Inhabited

/-- `none` when there are too many. -/
abbrev Effects := Option (List Effect)

def pathOf (s : Summary) (exported : BitVec 8) (ret : Option Src) : ℕ → Src → Option Path
  | depth, src =>
    if some src = ret then some ⟨.ret, []⟩
    else
      match src, depth with
      | .arg i, _ => if exported.getLsbD i then some ⟨.arg i, []⟩ else none
      | .ld l, depth + 1 =>
        match s.loads[l]? with
        | some (b, k) =>
          if k < 0 ∧ k ≠ elemOffset then none
          else (pathOf s exported ret depth b).bind (·.andThen k)
        | none => none
      | _, _ => none

/-- The callee's own object, not one of its calls. -/
def freshObj : ℕ := 0x80000000

def storesVtable (s : Summary) (src : Src) : Option U64 :=
  (s.vtStores.find? fun v => v.1 = src ∧ v.2.1 = 0).map fun v => v.2.2

/-- The value of a source no path leads to. -/
def objectOf (s : Summary) (src : Src) (off : ℤ) : EVal :=
  if off ≠ 0 then .unk
  else
    match src with
    | .ret c =>
      match storesVtable s src with
      | some vt => .obj (.vtable vt)
      | none =>
        match s.callTargets[c]? with
        | some t => if t ≠ 0 then .obj (.retOf t) else .unk
        | none => .unk
    | .obj i =>
      match s.objs[i]? with
      | some o => .obj o
      | none => .unk
    | _ => .unk

def valueOf (s : Summary) (src : Src) (off : ℤ) (exported : BitVec 8) (ret : Option Src) : EVal :=
  match pathOf s exported ret maxDepth src with
  | some p => if off = elemOffset then .elem p else .ptr p off
  | none =>
    match src with
    | .ret c =>
      if off = 0 ∧ (storesVtable s src).isSome then objectOf s src off
      else if c ∈ s.fresh then .obj (.fresh c)
      else objectOf s src off
    | .obj i =>
      match s.objs[i]? with
      | some (.fresh _) => .obj (.fresh (freshObj ||| i))
      | _ => objectOf s src off
    | _ => objectOf s src off

def returned (s : Summary) : Option Src :=
  match s.rets with
  | [] => none
  | first :: _ =>
    if s.retUnknown = false ∧ first.2 = 0 ∧ first.1 ≠ .stack ∧ ∀ r ∈ s.rets, r = first then
      some first.1
    else none

def addEffect (out : List Effect) (e : Effect) : List Effect := if e ∈ out then out else out ++ [e]

/-- The effects on the memory reached from the parameters exported and from the object returned. -/
def effectsOf (s : Summary) (exported : BitVec 8) : Effects :=
  let ret := returned s
  let path := pathOf s exported ret maxDepth
  let stores := s.fieldStores.filterMap fun f =>
    (path f.1).map fun p => Effect.store p f.2.1 (valueOf s f.2.2.1 f.2.2.2 exported ret)
  let clobbers := s.fieldClobbers.filterMap fun f =>
    (path f.1).map fun p => Effect.clobber p f.2.1 f.2.2 (f ∈ s.fieldNumbers)
  let vtables := s.vtStores.filterMap fun v => (path v.1).map fun p => Effect.vtable p v.2.1 v.2.2
  let copies := s.bufCopies.filterMap fun b =>
    match path b.1, path b.2 with
    | some p, some q => some (Effect.copy p q)
    | some p, none => some (Effect.write p)
    | none, _ => none
  let writes := s.bufWrites.filterMap fun b => (path b).map Effect.write
  let escapes := s.bufEscapes.filterMap fun e => (path e.1).map fun p => Effect.escape p e.2
  let triples := s.triples.filterMap fun t => (path t.1).map fun p => Effect.triple p t.2
  let out := (stores ++ clobbers ++ vtables ++ copies ++ writes ++ escapes ++ triples).foldl
    addEffect []
  if out.length ≤ maxEffects then some out else none

/-- A value in the caller. -/
inductive CVal where
  | ptr (src : Src) (off : ℤ)
  | elem (src : Src)
  | unk
  deriving DecidableEq, Repr, Inhabited

/-- The summary that gains the effects, with what its loads and objects are known by. -/
structure Caller where
  s : Summary
  loads : List ((Src × ℤ) × ℕ)
  objs : List ((Option ℕ × ObjRef) × ℕ)

/-- The sum as a signed word, if it is one. -/
def checkedAdd (a b : ℤ) : Option ℤ :=
  if -2147483648 ≤ a + b ∧ a + b ≤ 2147483647 then some (a + b) else none

namespace Caller

def load (cx : Caller) (src : Src) (k : ℤ) : Caller × CVal :=
  match cx.loads.lookup (src, k) with
  | some l => (cx, .ptr (.ld l) 0)
  | none =>
    let l := cx.s.loads.length
    ({ cx with
        s := { cx.s with loads := cx.s.loads ++ [(src, k)] }
        loads := ((src, k), l) :: cx.loads }, .ptr (.ld l) 0)

/-- A fresh object is one for each call site. -/
def obj (cx : Caller) (c : ℕ) (o : ObjRef) : Caller × Src :=
  let key := match o with
    | .fresh _ => (some c, o)
    | _ => (none, o)
  match cx.objs.lookup key with
  | some i => (cx, .obj i)
  | none =>
    let i := cx.s.objs.length
    ({ cx with s := { cx.s with objs := cx.s.objs ++ [o] }, objs := (key, i) :: cx.objs }, .obj i)

/-- The value at `+k` of a stack object passed, at the call. -/
def stackField (cx : Caller) (c j : ℕ) (k : ℤ) : CVal :=
  match cx.s.stackFields.find? fun f => f.1 = c ∧ f.2.1 = j ∧ f.2.2.1 = k with
  | some (_, _, _, .ptr src off) => .ptr src off
  | some (_, _, _, .elem src) => .elem src
  | _ => .unk

/-- One load of a path; `d` says how many come before it. -/
def pathLoad (cx : Caller) (c : ℕ) (root : Root) (d : ℕ) (k : ℤ) (v : CVal) : Caller × CVal :=
  match v with
  | .ptr .stack _ =>
    match root with
    | .arg j => if d = 0 ∧ k ≠ elemOffset then (cx, cx.stackField c j k) else (cx, .unk)
    | .ret => (cx, .unk)
  | .ptr src off =>
    if k = elemOffset then cx.load src elemOffset
    else
      match checkedAdd off k with
      | some at_ => cx.load src at_
      | none => (cx, .unk)
  | .elem src => cx.load src elemOffset
  | .unk => (cx, .unk)

def pathLoads (c : ℕ) (root : Root) : ℕ → List ℤ → Caller → CVal → Caller × CVal
  | _, [], cx, v => (cx, v)
  | d, k :: ks, cx, v =>
    let (cx, v) := cx.pathLoad c root d k v
    pathLoads c root (d + 1) ks cx v

/-- The pointer `p` of the callee at call `c`. -/
def path (cx : Caller) (c : ℕ) (args : List CVal) (p : Path) : Caller × CVal :=
  let v := match p.root with
    | .arg j => args.getD j .unk
    | .ret => .ptr (.ret c) 0
  pathLoads c p.root 0 p.ks cx v

def address (cx : Caller) (c : ℕ) (args : List CVal) (p : Path) (off : ℤ) :
    Caller × Option (Src × ℤ) :=
  let (cx, v) := cx.path c args p
  match v with
  | .ptr .stack _ => (cx, none)
  | .unk => (cx, none)
  | .ptr src o =>
    if off = elemOffset then (cx, some (src, elemOffset))
    else (cx, (checkedAdd o off).map fun a => (src, a))
  | .elem src => (cx, some (src, elemOffset))

def value (cx : Caller) (c : ℕ) (args : List CVal) (v : EVal) : Caller × Option (Src × ℤ) :=
  match v with
  | .ptr p k =>
    let (cx, v) := cx.path c args p
    match v with
    | .ptr .stack _ => (cx, none)
    | .unk => (cx, none)
    | .ptr src o => (cx, (checkedAdd o k).map fun a => (src, a))
    | .elem src => (cx, some (src, elemOffset))
  | .elem p =>
    let (cx, v) := cx.path c args p
    match v with
    | .ptr .stack _ => (cx, none)
    | .unk => (cx, none)
    | .ptr src _ => (cx, some (src, elemOffset))
    | .elem src => (cx, some (src, elemOffset))
  | .obj o =>
    let (cx, src) := cx.obj c o
    (cx, some (src, 0))
  | .unk => (cx, none)

def buffer (cx : Caller) (c : ℕ) (args : List CVal) (p : Path) : Caller × Option Src :=
  let (cx, v) := cx.path c args p
  match v with
  | .ptr .stack _ => (cx, none)
  | .unk => (cx, none)
  | .ptr src _ => (cx, some src)
  | .elem src => (cx, some src)

/-- What the caller passes at call `c`. -/
def argsOf (s : Summary) (c : ℕ) : List CVal :=
  let args := s.args.foldl (fun args a =>
    if a.1 = c ∧ a.2.1 < 6 then args.set a.2.1 (CVal.ptr a.2.2.1 a.2.2.2) else args)
    (List.replicate 6 CVal.unk)
  s.elemArgs.foldl (fun args a =>
    if a.1 = c ∧ a.2.1 < 6 then args.set a.2.1 (CVal.elem a.2.2) else args) args

/-- A vtable stored into an object on the stack is one of the object first given to a call. -/
def madeAt (s : Summary) (c j : ℕ) : Option (ℕ × ℕ) :=
  match s.stackEv.find? fun e => e.1 = c ∧ e.2.1 = j with
  | some (_, _, .made c₀ j₀) => some (c₀, j₀)
  | some (_, _, .vtable _) => none
  | none => some (c, j)

def stackObject (args : List CVal) (p : Path) (off : ℤ) : Option ℕ :=
  match p.root, p.ks with
  | .arg j, [] =>
    match args.getD j .unk with
    | .ptr .stack _ => if off = 0 then some j else none
    | _ => none
  | _, _ => none

def applyEffect (cx : Caller) (c : ℕ) (args : List CVal) : Effect → Caller
  | .store p off v =>
    match cx.address c args p off with
    | (cx, none) => cx
    | (cx, some (d, o)) =>
      match cx.value c args v with
      | (cx, some (vs, vo)) =>
        { cx with s := { cx.s with fieldStores := cx.s.fieldStores ++ [(d, o, vs, vo)] } }
      | (cx, none) =>
        { cx with s := { cx.s with fieldClobbers := cx.s.fieldClobbers ++ [(d, o, 8)] } }
  | .clobber p off n number =>
    match cx.address c args p off with
    | (cx, none) => cx
    | (cx, some (d, o)) =>
      { cx with
        s := { cx.s with
          fieldClobbers := cx.s.fieldClobbers ++ [(d, o, n)]
          fieldNumbers := cx.s.fieldNumbers ++ if number then [(d, o, n)] else [] } }
  | .vtable p off vt =>
    match stackObject args p off with
    | some j =>
      match madeAt cx.s c j with
      | some (c₀, j₀) => { cx with s := { cx.s with madeVt := cx.s.madeVt ++ [(c₀, j₀, vt)] } }
      | none => cx
    | none =>
      match cx.address c args p off with
      | (cx, none) => cx
      | (cx, some (d, o)) =>
        { cx with s := { cx.s with vtStores := cx.s.vtStores ++ [(d, o, vt)] } }
  | .copy p q =>
    let (cx, to_) := cx.buffer c args p
    let (cx, from_) := cx.buffer c args q
    match to_, from_ with
    | some x, some y => { cx with s := { cx.s with bufCopies := cx.s.bufCopies ++ [(x, y)] } }
    | some x, none => { cx with s := { cx.s with bufWrites := cx.s.bufWrites ++ [x] } }
    | none, _ => cx
  | .write p =>
    match cx.buffer c args p with
    | (cx, some x) => { cx with s := { cx.s with bufWrites := cx.s.bufWrites ++ [x] } }
    | (cx, none) => cx
  | .escape p k =>
    match cx.address c args p k with
    | (cx, some (d, o)) => { cx with s := { cx.s with bufEscapes := cx.s.bufEscapes ++ [(d, o)] } }
    | (cx, none) => cx
  | .triple p k =>
    match cx.address c args p k with
    | (cx, some (d, o)) =>
      if o ≠ elemOffset then { cx with s := { cx.s with triples := cx.s.triples ++ [(d, o)] } }
      else cx
    | (cx, none) => cx

/-- A pointer passed to a function with too many effects. -/
def escapeOf : CVal → List (Src × ℤ)
  | .ptr .stack _ => []
  | .ptr src k => [(src, k)]
  | .elem src => [(src, elemOffset)]
  | .unk => []

def apply (cx : Caller) (c : ℕ) (fx : Effects) : Caller :=
  let args := argsOf cx.s c
  match fx with
  | none => { cx with s := { cx.s with bufEscapes := cx.s.bufEscapes ++ args.flatMap escapeOf } }
  | some es => es.foldl (fun cx e => cx.applyEffect c args e) cx

end Caller

/-- The order of the sources, by kind and then by number. -/
def Src.code : Src → List ℤ
  | .arg i => [0, i]
  | .ret c => [1, c]
  | .ld l => [2, l]
  | .stack => [3, 0]
  | .obj i => [4, i]

def sortDedup {α : Type} [DecidableEq α] (code : α → List ℤ) (l : List α) : List α :=
  (l.insertionSort fun a b => code a ≤ code b).dedup

theorem mem_sortDedup {α : Type} [DecidableEq α] {code : α → List ℤ} {l : List α} {x : α} :
    x ∈ sortDedup code l ↔ x ∈ l := by
  unfold sortDedup
  rw [mem_dedup, mem_insertionSort]

def normalize (s : Summary) : Summary :=
  let triple := fun f : Src × ℤ × ℤ => f.1.code ++ [f.2.1, f.2.2]
  let pair := fun e : Src × ℤ => e.1.code ++ [e.2]
  { s with
    fieldStores :=
      sortDedup (fun f => f.1.code ++ [f.2.1] ++ f.2.2.1.code ++ [f.2.2.2]) s.fieldStores
    fieldClobbers := sortDedup triple s.fieldClobbers
    fieldNumbers := sortDedup triple s.fieldNumbers
    vtStores := sortDedup (fun v => v.1.code ++ [v.2.1, v.2.2.toNat]) s.vtStores
    bufCopies := sortDedup (fun b => b.1.code ++ b.2.code) s.bufCopies
    bufWrites := sortDedup Src.code s.bufWrites
    bufEscapes := sortDedup pair s.bufEscapes
    madeVt := sortDedup (fun m => [(m.1 : ℤ), m.2.1, m.2.2.toNat]) s.madeVt
    triples := sortDedup pair s.triples }

/-- A map from the pairs to their positions, the last one of each kept. -/
def positions {α : Type} (l : List α) : List (α × ℕ) := l.zipIdx.reverse

def callsOf (orig : Summary) (view : ℕ → Effects) (fidx : U64 → Option ℕ) : List (ℕ × ℕ) :=
  orig.callTargets.zipIdx.filterMap fun t =>
    (fidx t.1).bind fun f => if view f = some [] then none else some (t.2, f)

def composeWith (orig : Summary) (view : ℕ → Effects) (fidx : U64 → Option ℕ) : Summary :=
  let calls := callsOf orig view fidx
  if calls = [] then orig
  else
    let objs := (positions orig.objs).filterMap fun o =>
      match o.1 with
      | .fresh _ => none
      | _ => some ((none, o.1), o.2)
    let cx := calls.foldl (fun cx call => cx.apply call.1 (view call.2))
      (Caller.mk orig (positions orig.loads) objs)
    normalize cx.s

section Congr

variable {orig : Summary} {view view' : ℕ → Effects} {fidx : U64 → Option ℕ}
  (h : ∀ t ∈ orig.callTargets.filterMap fidx, view t = view' t)
include h

theorem view_of_target {t : U64 × ℕ} (ht : t ∈ orig.callTargets.zipIdx) {f : ℕ}
    (hf : fidx t.1 = some f) : view f = view' f :=
  h f (mem_filterMap.mpr ⟨t.1, fst_mem_of_mem_zipIdx ht, hf⟩)

theorem callsOf_congr : callsOf orig view fidx = callsOf orig view' fidx := by
  refine filterMap_congr fun t ht => ?_
  cases hf : fidx t.1 with
  | none => rfl
  | some f =>
    simp only [Option.bind_some]
    rw [view_of_target h ht hf]

theorem view_of_call {call : ℕ × ℕ} (hcall : call ∈ callsOf orig view fidx) :
    view call.2 = view' call.2 := by
  obtain ⟨t, ht, heq⟩ := mem_filterMap.mp hcall
  obtain ⟨f, hf, heq⟩ := Option.bind_eq_some_iff.mp heq
  split at heq
  · cases heq
  · obtain rfl := Option.some.inj heq
    exact view_of_target h ht hf

/-- Only the effects of the direct callees matter. -/
theorem composeWith_congr : composeWith orig view fidx = composeWith orig view' fidx := by
  unfold composeWith
  rw [← callsOf_congr h]
  simp only
  split
  · rfl
  · congr 2
    refine foldl_ext _ _ _ fun cx call hcall => ?_
    rw [view_of_call h hcall]

end Congr

def isFresh (s : Summary) : Src → Bool
  | .ret c => c ∈ s.fresh
  | _ => false

/-- The offsets one value is stored at in one object, and whether past the start. -/
def storedAt (s : Summary) (key : Src × Src) : List (ℤ × Bool) :=
  s.fieldStores.filterMap fun f =>
    if (f.2.2.1, f.1) = key ∧ f.1 ≠ .stack ∧ f.2.2.1 ≠ .stack ∧ f.2.1 ≠ elemOffset ∧ 0 ≤ f.2.1 then
      some (f.2.1, decide (f.2.2.2 ≠ 0))
    else none

/-- Is the value stored there, and if so past the start? -/
def storedPast (offs : List (ℤ × Bool)) (x : ℤ) : Option Bool :=
  match offs.filter fun e => e.1 = x with
  | [] => none
  | found => some (found.any fun e => e.2)

def triplesOf (s : Summary) : List (Src × ℤ) :=
  ((s.fieldStores.map fun f => (f.2.2.1, f.1)).dedup).flatMap fun key =>
    let offs := storedAt s key
    offs.filterMap fun e =>
      match storedPast offs e.1, storedPast offs (e.1 + 8), storedPast offs (e.1 + 16) with
      | some a, some b, some c => if a || b || c then some (key.2, e.1) else none
      | _, _, _ => none

/-- The fields that hold the buffer, the lowest of each object. -/
def lowestFields (s : Summary) (b : Src) : List (Src × ℤ) :=
  let held := s.fieldStores.filterMap fun f =>
    if f.2.2.1 = b ∧ f.1 ≠ .stack ∧ f.1 ≠ b ∧ f.2.1 ≠ elemOffset ∧ 0 ≤ f.2.1 then
      some (f.1, f.2.1)
    else none
  sortDedup (fun e => e.1.code ++ [e.2]) (held.filter fun e => ∀ e' ∈ held, e'.1 = e.1 → e.2 ≤ e'.2)

def fieldLoads : List (Src × ℤ) → Summary → List ((Src × ℤ) × ℕ) →
    List Src × Summary × List ((Src × ℤ) × ℕ)
  | [], s, loads => ([], s, loads)
  | key :: keys, s, loads =>
    match loads.lookup key with
    | some l =>
      let (targets, s, loads) := fieldLoads keys s loads
      (.ld l :: targets, s, loads)
    | none =>
      let l := s.loads.length
      let (targets, s, loads) :=
        fieldLoads keys { s with loads := s.loads ++ [key] } ((key, l) :: loads)
      (.ld l :: targets, s, loads)

/-- The facts of the fresh buffer `b` given to the buffers it went to. -/
def installAt (st : Summary × List ((Src × ℤ) × ℕ)) (b : Src) : Summary × List ((Src × ℤ) × ℕ) :=
  let (inFields, s, loads) := fieldLoads (lowestFields st.1 b) st.1 st.2
  let copiedTo := (s.bufCopies.filter fun c => c.2 = b ∧ c.1 ≠ b ∧ c.1 ≠ .stack).map Prod.fst
  let targets := sortDedup Src.code (inFields ++ copiedTo)
  if targets = [] then (s, loads)
  else
    let stores := (s.fieldStores.filter fun f => f.1 = b).map fun f => f.2.2
    let clobbers := (s.fieldClobbers.filter fun f => f.1 = b).map fun f =>
      (f.2.2, decide (f ∈ s.fieldNumbers))
    let constructed := s.vtStores.any fun v => v.1 = b
    let copies := (s.bufCopies.filter fun c => c.1 = b ∧ c.2 ≠ b).map Prod.snd
    let written := s.bufWrites.contains b
    let escapes := s.bufEscapes.any fun e => e.1 = b
    let s := { s with
      fieldStores := s.fieldStores ++ targets.flatMap fun t =>
        stores.map fun v => (t, elemOffset, v.1, v.2)
      fieldClobbers := s.fieldClobbers ++ targets.flatMap fun t =>
        (clobbers.map fun n => (t, elemOffset, n.1)) ++
          if constructed then [(t, elemOffset, 8)] else []
      fieldNumbers := s.fieldNumbers ++ targets.flatMap fun t =>
        (clobbers.filter fun n => n.2).map fun n => (t, elemOffset, n.1)
      bufCopies := s.bufCopies ++ targets.flatMap fun t => copies.map fun y => (t, y)
      bufWrites := s.bufWrites ++ if written then targets else []
      bufEscapes := s.bufEscapes ++ if escapes then targets.map fun t => (t, elemOffset) else [] }
    -- an element loaded from it is one of the container's, when it went to one
    match targets with
    | [t] =>
      ({ s with loads := s.loads.map fun l => if l.1 = b then (t, elemOffset) else l }, loads)
    | _ => (s, loads)

/-- The fresh-memory facts moved to where the memory went, and the triples. -/
def install (s : Summary) : Summary :=
  let s := { s with triples := s.triples ++ triplesOf s }
  let sources := sortDedup Src.code
    ((s.fieldStores.map (fun f => f.2.2.1) ++ s.bufCopies.map Prod.snd).filter (isFresh s))
  normalize (sources.foldl installAt (s, positions s.loads)).1

end EffectSummaries
