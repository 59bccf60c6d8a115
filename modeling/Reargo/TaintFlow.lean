import Reargo.SsaEntryValues
import Reargo.RuleSaturation

/-!
# Taint over SSA values

The engine knows a value by its slot and number, and takes the register values numbered
zero for the values on entry. A value on entry has the number its slot had reached when it
was first read, so it can be missed as a source and can share its name with a definition.
Said exactly: the engine finds what depends on the sources just when the names do no harm.
-/
namespace TaintFlow

open PcodeModel ControlFlow SsaModel SsaBuild SsaLinks SsaPaths SsaEntryValues RuleSaturation List

/-- Space, offset, size and version. -/
abbrev ValueKey := SpaceId × U64 × ℕ × ℕ

def varnodeKey (vn : SsaVarnode) : ValueKey :=
  (vn.data.space, vn.data.offset, vn.data.size, vn.version)

def valueKey (func : SsaFunction) (var_id : ℕ) : ValueKey := varnodeKey (func.var var_id)

inductive TaintSinkKind where
  | loadAddress
  | storeAddress
  | storedValue
  | indirectBranch
  | indirectCall
  deriving DecidableEq, Repr

structure TaintSink where
  opIndex : ℕ
  address : U64
  kind : TaintSinkKind
  deriving DecidableEq, Repr

structure TaintEngine where
  sources : Finset ValueKey
  tainted : Finset ValueKey

namespace TaintEngine

def new : TaintEngine := ⟨∅, ∅⟩

/-- Register values numbered zero at an offset, of any size. -/
def addSourceRegister (func : SsaFunction) (e : TaintEngine) (offset : U64) : TaintEngine :=
  { e with
    sources := func.varnodes.foldl (fun sources vn =>
      if vn.data.space = .register ∧ vn.data.offset = offset ∧ vn.version = 0 then
        insert (varnodeKey vn) sources
      else sources) e.sources }

/-- One operation of a round, with the keys so far and whether the round changed them. -/
def visit (func : SsaFunction) (acc : Finset ValueKey × Bool) (op : SsaOp) :
    Finset ValueKey × Bool :=
  if op.dead then acc
  else
    match op.output with
    | none => acc
    | some out_id =>
      let any_input_tainted := op.inputs.any fun id =>
        (func.var id).data.space ≠ .const ∧ valueKey func id ∈ acc.1
      if any_input_tainted then
        let out_key := valueKey func out_id
        (insert out_key acc.1, acc.2 || out_key ∉ acc.1)
      else acc

def rounds (func : SsaFunction) : ℕ → Finset ValueKey → Finset ValueKey
  | 0, tainted => tainted
  | n + 1, tainted =>
    let r := func.ops.foldl (visit func) (tainted, false)
    if r.2 then rounds func n r.1 else r.1

def propagate (func : SsaFunction) (e : TaintEngine) : TaintEngine :=
  { e with tainted := rounds func (func.ops.length + 1) e.sources }

def isTainted (func : SsaFunction) (e : TaintEngine) (var_id : ℕ) : Bool :=
  (func.var var_id).data.space ≠ .const ∧ valueKey func var_id ∈ e.tainted

def sinksOf (func : SsaFunction) (e : TaintEngine) (idx : ℕ) (op : SsaOp) : List TaintSink :=
  if op.dead then []
  else
    let tainted_in := fun i : ℕ => (op.inputs[i]?).any fun id => e.isTainted func id
    let sink := fun (i : ℕ) (kind : TaintSinkKind) =>
      if tainted_in i then [TaintSink.mk idx op.address kind] else []
    match op.opcode with
    | .load => sink 1 .loadAddress
    | .store => sink 1 .storeAddress ++ sink 2 .storedValue
    | .branchInd => sink 0 .indirectBranch
    | .callInd => sink 0 .indirectCall
    | _ => []

def findSinks (func : SsaFunction) (e : TaintEngine) : List TaintSink :=
  func.ops.zipIdx.flatMap fun p => e.sinksOf func p.2 p.1

def analysed (func : SsaFunction) (offsets : List U64) : TaintEngine :=
  (offsets.foldl (addSourceRegister func) new).propagate func

end TaintEngine

section Flow

variable (func : SsaFunction) (offsets : List U64)

/-- The value on entry of a source register, of any size. -/
structure Incoming (v : ℕ) : Prop where
  lt : v < func.varnodes.length
  register : (func.var v).data.space = .register
  source : (func.var v).data.offset ∈ offsets
  undefined : (func.var v).defOp = none

/-- A live operation reads the one value and defines the other. -/
def Feeds (v w : ℕ) : Prop :=
  ∃ op ∈ func.ops, op.dead = false ∧ v ∈ op.inputs ∧ op.output = some w

def Reached (v : ℕ) : Prop := ∃ u, Incoming func offsets u ∧ Relation.ReflTransGen (Feeds func) u v

def SinkOperand (op : SsaOp) : TaintSinkKind → ℕ → Prop
  | .loadAddress, v => op.opcode = .load ∧ op.inputs[1]? = some v
  | .storeAddress, v => op.opcode = .store ∧ op.inputs[1]? = some v
  | .storedValue, v => op.opcode = .store ∧ op.inputs[2]? = some v
  | .indirectBranch, v => op.opcode = .branchInd ∧ op.inputs[0]? = some v
  | .indirectCall, v => op.opcode = .callInd ∧ op.inputs[0]? = some v

/-- The engine's answers are those of the flow. -/
structure TracksTaint (e : TaintEngine) : Prop where
  values : ∀ v < func.varnodes.length, func.isConst v = false →
    (e.isTainted func v = true ↔ Reached func offsets v)
  sinks : ∀ i op kind v, func.ops[i]? = some op → op.dead = false → SinkOperand op kind v →
    Reached func offsets v → TaintSink.mk i op.address kind ∈ e.findSinks func

inductive NameReached : ValueKey → Prop where
  | source {v : ℕ} : v < func.varnodes.length → (func.var v).data.space = .register →
      (func.var v).data.offset ∈ offsets → (func.var v).version = 0 → NameReached (valueKey func v)
  | step {op : SsaOp} {v w : ℕ} : op ∈ func.ops → op.dead = false → v ∈ op.inputs →
      func.isConst v = false → op.output = some w → NameReached (valueKey func v) →
        NameReached (valueKey func w)

structure HarmlessNames : Prop where
  late : ∀ v, Incoming func offsets v → (func.var v).version ≠ 0 →
    NameReached func offsets (valueKey func v)
  others : ∀ v < func.varnodes.length, func.isConst v = false → (func.var v).defOp = none →
    ¬ Incoming func offsets v → ∀ w < func.varnodes.length,
      valueKey func w = valueKey func v → ¬ Reached func offsets w

end Flow

variable {k : ValueKey}

section Names

variable {func : SsaFunction} {offsets : List U64}

/-- A live operation gives its output's name as soon as it reads a name that is there. -/
def ruleOf (func : SsaFunction) (op : SsaOp) : Option (Rule ValueKey) :=
  if op.dead then none
  else op.output.map fun w =>
    ⟨(op.inputs.filter fun v => (func.var v).data.space ≠ .const).map (valueKey func),
      valueKey func w⟩

def rules (func : SsaFunction) : List (Rule ValueKey) := func.ops.filterMap (ruleOf func)

theorem foldl_visit (ops : List SsaOp) (acc : Finset ValueKey × Bool) :
    ops.foldl (TaintEngine.visit func) acc = (ops.filterMap (ruleOf func)).foldl fire acc := by
  induction ops generalizing acc with
  | nil => rfl
  | cons op ops ih =>
    rw [foldl_cons, ih]
    cases hdead : op.dead with
    | true => simp [TaintEngine.visit, ruleOf, hdead]
    | false =>
      cases hout : op.output with
      | none => simp [TaintEngine.visit, ruleOf, hdead, hout]
      | some w =>
        have hfire : TaintEngine.visit func acc op = fire acc
            ⟨(op.inputs.filter fun v => (func.var v).data.space ≠ .const).map
              (valueKey func), valueKey func w⟩ := by
          simp [TaintEngine.visit, fire, hdead, hout]
        simp [ruleOf, hdead, hout, hfire]

theorem rounds_eq_saturate (n : ℕ) (tainted : Finset ValueKey) :
    TaintEngine.rounds func n tainted = saturate (rules func) n tainted := by
  induction n generalizing tainted with
  | zero => rfl
  | succ n ih =>
    have hround : func.ops.foldl (TaintEngine.visit func) (tainted, false) =
        round (rules func) tainted := foldl_visit func.ops (tainted, false)
    simp only [TaintEngine.rounds, saturate, hround, ih]

theorem mem_sources :
    k ∈ (offsets.foldl (TaintEngine.addSourceRegister func) TaintEngine.new).sources ↔
      ∃ vn ∈ func.varnodes, vn.data.space = .register ∧ vn.data.offset ∈ offsets ∧
        vn.version = 0 ∧ varnodeKey vn = k := by
  have hone : ∀ (vns : List SsaVarnode) (offset : U64) (S : Finset ValueKey),
      k ∈ vns.foldl (fun sources vn =>
        if vn.data.space = .register ∧ vn.data.offset = offset ∧ vn.version = 0 then
          insert (varnodeKey vn) sources
        else sources) S ↔ k ∈ S ∨ ∃ vn ∈ vns, vn.data.space = .register ∧
          vn.data.offset = offset ∧ vn.version = 0 ∧ varnodeKey vn = k := by
    intro vns offset
    induction vns with
    | nil => simp
    | cons vn vns ih =>
      intro S
      rw [foldl_cons, ih]
      split
      · next h =>
        simp only [Finset.mem_insert, mem_cons, exists_eq_or_imp, h, true_and]
        tauto
      · next h =>
        simp only [mem_cons, exists_eq_or_imp]
        tauto
  have hall : ∀ (e : TaintEngine), k ∈ (offsets.foldl (TaintEngine.addSourceRegister func) e).sources ↔
      k ∈ e.sources ∨ ∃ vn ∈ func.varnodes, vn.data.space = .register ∧
        vn.data.offset ∈ offsets ∧ vn.version = 0 ∧ varnodeKey vn = k := by
    induction offsets with
    | nil => simp
    | cons offset offsets ih =>
      intro e
      rw [foldl_cons, ih, TaintEngine.addSourceRegister, hone]
      simp only [mem_cons, or_assoc]
      refine or_congr_right ⟨?_, ?_⟩
      · rintro (⟨vn, hvn, hreg, hoff, hver, hkey⟩ | ⟨vn, hvn, hreg, hoff, hver, hkey⟩)
        · exact ⟨vn, hvn, hreg, .inl hoff, hver, hkey⟩
        · exact ⟨vn, hvn, hreg, .inr hoff, hver, hkey⟩
      · rintro ⟨vn, hvn, hreg, hoff | hoff, hver, hkey⟩
        · exact .inl ⟨vn, hvn, hreg, hoff, hver, hkey⟩
        · exact .inr ⟨vn, hvn, hreg, hoff, hver, hkey⟩
  simpa [TaintEngine.new] using hall TaintEngine.new

theorem mem_tainted :
    k ∈ (TaintEngine.analysed func offsets).tainted ↔ NameReached func offsets k := by
  have hlen : (rules func).length < func.ops.length + 1 :=
    Nat.lt_succ_of_le (length_filterMap_le _ _)
  have hsat : k ∈ (TaintEngine.analysed func offsets).tainted ↔ Derives (rules func)
        (offsets.foldl (TaintEngine.addSourceRegister func) TaintEngine.new).sources k := by
    simp only [TaintEngine.analysed, TaintEngine.propagate, rounds_eq_saturate]
    exact mem_saturate hlen _ k
  rw [hsat]
  clear hsat
  constructor
  · intro h
    induction h with
    | base hk =>
      obtain ⟨vn, hvn, hreg, hoff, hver, rfl⟩ := mem_sources.mp hk
      obtain ⟨v, hv, rfl⟩ := getElem_of_mem hvn
      have hvar : func.var v = func.varnodes[v] := getD_eq_getElem _ _ hv
      rw [← hvar] at hreg hoff hver ⊢
      exact .source hv hreg hoff hver
    | rule hr hp _ ih =>
      obtain ⟨op, hop, hrule⟩ := mem_filterMap.mp hr
      unfold ruleOf at hrule
      split at hrule
      · cases hrule
      next hdead =>
      obtain ⟨w, hw, rfl⟩ := Option.map_eq_some_iff.mp hrule
      obtain ⟨v, hv, rfl⟩ := mem_map.mp hp
      obtain ⟨hv, hconst⟩ := mem_filter.mp hv
      exact .step hop (by simpa using hdead) hv (by simpa [SsaFunction.isConst] using hconst) hw ih
  · intro h
    induction h with
    | source hv hreg hoff hver =>
      refine .base (mem_sources.mpr ⟨_, getElem_mem hv, ?_⟩)
      have hvar := getD_eq_getElem func.varnodes default hv
      rw [← hvar]
      exact ⟨hreg, hoff, hver, rfl⟩
    | @step op v w hop hdead hv hconst hw _ ih =>
      refine Derives.rule (r := ⟨(op.inputs.filter fun v =>
        (func.var v).data.space ≠ .const).map (valueKey func), valueKey func w⟩) ?_ ?_ ih
      · exact mem_filterMap.mpr ⟨op, hop, by simp [ruleOf, hdead, hw]⟩
      · refine mem_map_of_mem (mem_filter.mpr ⟨hv, ?_⟩)
        simpa [SsaFunction.isConst] using hconst

end Names

structure Wired (func : SsaFunction) : Prop where
  inputs : ∀ op ∈ func.ops, ∀ v ∈ op.inputs, v < func.varnodes.length ∧
    (func.isConst v = true → (func.var v).defOp = none)
  outputs : ∀ op ∈ func.ops, ∀ v, op.output = some v → v < func.varnodes.length ∧
    (func.var v).defOp ≠ none
  numbered : ∀ v, (func.var v).defOp ≠ none → (func.var v).version ≠ 0
  definitions : ∀ v w, (func.var v).defOp ≠ none → (func.var w).defOp ≠ none →
    valueKey func v = valueKey func w → v = w

theorem wired_fromCfg {cfg : ControlFlowGraph}
    (hentry : cfg.blocks ≠ [] → cfg.entryBlock < cfg.blocks.length) : Wired (fromCfg cfg) := by
  obtain ⟨hlinks, hshut⟩ := links_renamed hentry
  have hentered : Entered (renamed cfg) := entered_renamed
  have hop : ∀ op ∈ (fromCfg cfg).ops, ∃ i, op = (SsaRenaming.opOf (renamed cfg) i).finish := by
    intro op hop
    obtain ⟨i, hi⟩ := getElem?_of_mem hop
    refine ⟨i, ?_⟩
    rw [← op_fromCfg, SsaFunction.op, getD_eq_getElem?_getD, hi, Option.getD_some]
  refine ⟨fun op hmem v hv => ?_, fun op hmem v hv => ?_, fun v hv => ?_, fun v w hv hw hkey => ?_⟩
  · obtain ⟨i, rfl⟩ := hop op hmem
    obtain ⟨x, hx, rfl⟩ := mem_map.mp hv
    cases x with
    | some w =>
      obtain ⟨hlt, hconst⟩ := hentered.inputs i w hx
      exact ⟨hlt, fun hc => hconst (of_decide_eq_true hc)⟩
    | none =>
      obtain ⟨j, hj⟩ := getElem?_of_mem hx
      exact absurd ((hshut i j).symm.trans (decide_eq_true hj)) (by decide)
  · obtain ⟨i, rfl⟩ := hop op hmem
    have hdef := hlinks.output i v hv
    exact ⟨lt_of_defOp hdef, by rw [var_fromCfg, hdef]; simp⟩
  · obtain ⟨d, hd⟩ := Option.ne_none_iff_exists'.mp hv
    exact (hentered.positive v d hd).ne'
  · obtain ⟨d, hd⟩ := Option.ne_none_iff_exists'.mp hv
    obtain ⟨e, he⟩ := Option.ne_none_iff_exists'.mp hw
    simp only [valueKey, varnodeKey, Prod.mk.injEq] at hkey
    obtain ⟨hspace, hoffset, hsize, hversion⟩ := hkey
    exact hlinks.distinct v w d e hd he (by
      simp only [slotOf, Prod.mk.injEq]
      exact ⟨hspace, hoffset, hsize⟩) hversion

section Exact

variable {func : SsaFunction} {offsets : List U64} {v : ℕ}

theorem Incoming.not_const (h : Incoming func offsets v) : func.isConst v = false := by
  simp [SsaFunction.isConst, h.register, SpaceId.register, SpaceId.const]

theorem Reached.incoming_or_defined (hw : Wired func) (h : Reached func offsets v) :
    Incoming func offsets v ∨ (func.var v).defOp ≠ none := by
  obtain ⟨u, hu, hpath⟩ := h
  rcases Relation.ReflTransGen.cases_tail hpath with rfl | ⟨x, -, op, hop, -, -, hout⟩
  · exact .inl hu
  · exact .inr (hw.outputs op hop v hout).2

theorem Reached.input_not_const (hw : Wired func) {op : SsaOp} (hop : op ∈ func.ops)
    (hv : v ∈ op.inputs) (h : Reached func offsets v) : func.isConst v = false := by
  rcases h.incoming_or_defined hw with hin | hdef
  · exact hin.not_const
  · exact Bool.eq_false_iff.mpr fun hc => hdef ((hw.inputs op hop v hv).2 hc)

theorem Reached.feed {op : SsaOp} {w : ℕ} (h : Reached func offsets v) (hop : op ∈ func.ops)
    (hlive : op.dead = false) (hv : v ∈ op.inputs) (hout : op.output = some w) :
    Reached func offsets w := by
  obtain ⟨u, hu, hpath⟩ := h
  exact ⟨u, hu, hpath.tail ⟨op, hop, hlive, hv, hout⟩⟩

theorem data_of_valueKey {w : ℕ} (h : valueKey func v = valueKey func w) :
    (func.var v).data = (func.var w).data ∧ (func.var v).version = (func.var w).version := by
  simp only [valueKey, varnodeKey, Prod.mk.injEq] at h
  obtain ⟨hspace, hoffset, hsize, hversion⟩ := h
  refine ⟨?_, hversion⟩
  cases hv : (func.var v).data
  cases hw : (func.var w).data
  simp_all

theorem reached_of_name (hw : Wired func) (h : HarmlessNames func offsets)
    (hk : NameReached func offsets k) :
    ∀ v < func.varnodes.length, func.isConst v = false → valueKey func v = k →
      Reached func offsets v := by
  induction hk with
  | @source u hu hreg hoff hver =>
    intro v hv _ hkey
    obtain ⟨hdata, hversion⟩ := data_of_valueKey hkey
    refine ⟨v, ⟨hv, by rw [hdata, hreg], by rw [hdata]; exact hoff, ?_⟩, .refl⟩
    by_contra hdef
    exact hw.numbered v hdef (hversion.trans hver)
  | @step op u w hop hlive hu hconst hout _ ih =>
    intro v hv hvconst hkey
    have hreached : Reached func offsets w :=
      (ih u (hw.inputs op hop u hu).1 hconst rfl).feed hop hlive hu hout
    obtain ⟨hwlt, hwdef⟩ := hw.outputs op hop w hout
    by_cases hdef : (func.var v).defOp = none
    · by_contra hnot
      refine h.others v hv hvconst hdef (fun hin => hnot ⟨v, hin, .refl⟩) w hwlt hkey.symm hreached
    · rwa [hw.definitions v w hdef hwdef hkey]

theorem name_of_reached (hw : Wired func) (h : HarmlessNames func offsets)
    (hv : Reached func offsets v) : NameReached func offsets (valueKey func v) := by
  obtain ⟨u, hu, hpath⟩ := hv
  induction hpath with
  | refl =>
    by_cases hver : (func.var u).version = 0
    · exact .source hu.lt hu.register hu.source hver
    · exact h.late u hu hver
  | @tail x w hpath hfeeds ih =>
    obtain ⟨op, hop, hlive, hx, hout⟩ := hfeeds
    have hreached : Reached func offsets x := ⟨u, hu, hpath⟩
    exact .step hop hlive hx (hreached.input_not_const hw hop hx) hout ih

theorem isTainted_iff : (TaintEngine.analysed func offsets).isTainted func v = true ↔
    func.isConst v = false ∧ NameReached func offsets (valueKey func v) := by
  simp [TaintEngine.isTainted, mem_tainted, SsaFunction.isConst]

theorem sinks_of_values (hw : Wired func) {e : TaintEngine}
    (h : ∀ v < func.varnodes.length, func.isConst v = false →
    (e.isTainted func v = true ↔ Reached func offsets v)) {i : ℕ} {op : SsaOp}
    {kind : TaintSinkKind} (hi : func.ops[i]? = some op)
    (hlive : op.dead = false) (hoperand : SinkOperand op kind v) (hv : Reached func offsets v) :
    TaintSink.mk i op.address kind ∈ e.findSinks func := by
  have hop : op ∈ func.ops := mem_of_getElem? hi
  have hmem : v ∈ op.inputs := by
    cases kind <;> exact mem_of_getElem? hoperand.2
  have htainted : e.isTainted func v = true :=
    (h v (hw.inputs op hop v hmem).1 (hv.input_not_const hw hop hmem)).mpr hv
  refine mem_flatMap.mpr ⟨(op, i), mem_zipIdx_iff_getElem?.mpr (by simpa using hi), ?_⟩
  cases kind <;> obtain ⟨hcode, hget⟩ := hoperand <;>
    simp [TaintEngine.sinksOf, hlive, hcode, hget, htainted]

theorem tracksTaint_iff (hw : Wired func) :
    TracksTaint func offsets (TaintEngine.analysed func offsets) ↔ HarmlessNames func offsets := by
  constructor
  · intro h
    have hname : ∀ v < func.varnodes.length, func.isConst v = false →
        (NameReached func offsets (valueKey func v) ↔ Reached func offsets v) := by
      intro v hv hconst
      rw [← h.values v hv hconst, isTainted_iff]
      simp [hconst]
    refine ⟨fun v hv _ => (hname v hv.lt hv.not_const).mpr ⟨v, hv, .refl⟩,
      fun v hv hconst hdef hin w hwlt hkey hreached => ?_⟩
    have hwconst : func.isConst w = false := by
      rw [SsaFunction.isConst, (data_of_valueKey hkey).1]
      exact hconst
    have hreachedv : Reached func offsets v :=
      (hname v hv hconst).mp (hkey ▸ (hname w hwlt hwconst).mpr hreached)
    exact (hreachedv.incoming_or_defined hw).elim hin fun hd => hd hdef
  · intro h
    have hvalues : ∀ v < func.varnodes.length, func.isConst v = false →
        ((TaintEngine.analysed func offsets).isTainted func v = true ↔ Reached func offsets v) := by
      intro v hv hconst
      rw [isTainted_iff]
      refine ⟨fun hk => reached_of_name hw h hk.2 v hv hconst rfl, fun hr => ⟨hconst, ?_⟩⟩
      exact name_of_reached hw h hr
    exact ⟨hvalues, fun i op kind v hi hlive hoperand hv =>
      sinks_of_values hw hvalues hi hlive hoperand hv⟩

end Exact

def overwrittenArm : List LiftedInstruction :=
  [⟨0x1000, 2, "jne 0x1008", [⟨.cBranch, none,
      [⟨.ram, 0x1008, 8⟩, ⟨.register, 0x206, 1⟩]⟩]⟩,
    ⟨0x1002, 5, "mov rdi, 5", [⟨.copy, some ⟨.register, 0x38, 8⟩, [⟨.const, 5, 8⟩]⟩]⟩,
    ⟨0x1007, 1, "ret", [⟨.return, none, [⟨.const, 0, 8⟩]⟩]⟩,
    ⟨0x1008, 4, "lea rax, [rdi + 1]", [⟨.intAdd, some ⟨.register, 0, 8⟩,
      [⟨.register, 0x38, 8⟩, ⟨.const, 1, 8⟩]⟩]⟩,
    ⟨0x100c, 3, "mov [rax], rsi", [⟨.store, none,
      [⟨.const, 1, 4⟩, ⟨.register, 0, 8⟩, ⟨.register, 0x30, 8⟩]⟩]⟩,
    ⟨0x100f, 1, "ret", [⟨.return, none, [⟨.const, 0, 8⟩]⟩]⟩]

theorem build_overwrittenArm : ControlFlowGraph.build overwrittenArm =
    finalizeCfg (runs [0x1000, 0x1002, 0x1008, 0x1010] overwrittenArm) 0x1000 := by
  have hsort : ∀ l : List U64, l.mergeSort = l.insertionSort (· ≤ ·) := fun l =>
    mergeSort_eq_insertionSort (· ≤ ·) l
  have hleaders : computeLeaders overwrittenArm = [0x1000, 0x1002, 0x1008, 0x1010] := by
    unfold computeLeaders
    rw [hsort]
    decide +kernel
  unfold ControlFlowGraph.build
  rw [hleaders]
  rfl

/-- When no slot is read on entry after a definition of it, nothing is lost. -/
theorem harmless_of_numbered_zero {func : SsaFunction} (hw : Wired func) (offsets : List U64)
    (h : ∀ v < func.varnodes.length, func.isConst v = false → (func.var v).defOp = none →
      (func.var v).version = 0) : HarmlessNames func offsets where
  late v hv hver := absurd (h v hv.lt hv.not_const hv.undefined) hver
  others v hv hconst hdef hin w hwlt hkey hreached := by
    obtain ⟨hdata, hversion⟩ := data_of_valueKey hkey
    rcases hreached.incoming_or_defined hw with hwin | hwdef
    · exact hin ⟨hv, hdata ▸ hwin.register, hdata ▸ hwin.source, hdef⟩
    · exact hw.numbered w hwdef (hversion.trans (h v hv hconst hdef))

/-- `lea rax, [rdi + 1]` and a store through the sum. -/
def parameterSum : List LiftedInstruction := overwrittenArm.drop 3

theorem build_parameterSum : ControlFlowGraph.build parameterSum =
    finalizeCfg (runs [0x1008, 0x1010] parameterSum) 0x1008 := by
  have hsort : ∀ l : List U64, l.mergeSort = l.insertionSort (· ≤ ·) := fun l =>
    mergeSort_eq_insertionSort (· ≤ ·) l
  have hleaders : computeLeaders parameterSum = [0x1008, 0x1010] := by
    unfold computeLeaders
    rw [hsort]
    decide +kernel
  unfold ControlFlowGraph.build
  rw [hleaders]
  rfl

end TaintFlow
