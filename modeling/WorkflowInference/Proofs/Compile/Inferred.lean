import WorkflowInference.Proofs.Compile.Naming

/-!
Inputs read off a compiled workflow. Each input that a step provides is taken up with the value that
it was given, and what is bound then stays. The search for an output looks at the steps before the
one that wants it, and all that it sees stands in the compiled workflow as it was during the search.
-/
namespace WorkflowInference.Compile

open Entries List Draft
open Yaml (aliasKey)

variable {arg a : String} {val : Doc} {s : Site}

def scopeOf (set : Setting) (w : String × Doc) : Scope :=
  ⟨set, .root w.1 w.2 (Graph.empty "" ""), Path.stem w.1, keysIn w.2⟩

def nameOf (set : Setting) (w : String × Doc) (i : Nat) : String :=
  let key := (keysIn w.2).getD i ""
  let space := ((opened w.2).bind fun o => (noteAt o.notes i key).toOption).elim globalSpace (·.2)
  nameAt (scopeOf set w) i key space

section Step

theorem Supplied.of_provided {provided : List Doc} {referred : List String}
    (h : Supplied c s provided referred d arg e) (hany : provided.any (· == .str arg)) : e = d := by
  cases h with
  | provided => rfl
  | left => rfl
  | given h => simp [hany] at h
  | passedOn h => simp [hany] at h
  | resolved h => simp [hany] at h
  | inferred h => simp [hany] at h
  | raised h => simp [hany] at h

theorem Taken.bindings_raw (h : Taken c s d arg val e) (hin : d.HasIn s.index)
    (haux : isAuxiliary arg = false) (halias : under? val aliasKey = none)
    (hinline : under? val Yaml.inlineKey = none) :
    get? (bindings (e.step s.index)) arg = some val := by
  cases h with
  | raw => exact get?_of_bind hin rfl
  | auxiliary h => simp [haux] at h
  | unresolved _ h => simp [halias] at h
  | deferred _ h => simp [halias] at h
  | resolved _ h => simp [halias] at h
  | value _ _ h => simp [hinline] at h

theorem StepRun.named_binding (run : StepRun sub c i key d e)
    (hv : get? (bindings (run.brought.step i)) a = some v)
    (hpath : key = interpreterKey → a ∉ pathInputs) :
    .str a ∈ run.provided ∧ get? (bindings (run.named.step i)) a = some v := by
  have hprepared : get? (bindings (run.prepared.step i)) a = some v := by
    rcases run.prepared_tags with ⟨hkey, tags, rfl, hbindings, -⟩ | ⟨-, hbindings, -⟩
    · have hne := hpath hkey
      simp only [pathInputs, mem_cons, not_mem_nil, or_false, not_or] at hne
      simp only [hbindings, setTags, foldl_cons, foldl_nil, get?_put]
      rw [if_neg (Ne.symm hne.2.2), if_neg (Ne.symm hne.2.1), if_neg (Ne.symm hne.1), hv]
    · rw [hbindings, hv]
  refine ⟨run.mem_provided (has_iff_mem.mp (Option.isSome_iff_exists.mpr ⟨v, hprepared⟩)), ?_⟩
  rw [run.named_bindings]
  refine run.owned_keeps (P := fun x => get? (bindings (x.step i)) a = some v)
    (fun arg _ x hin hnone hx => ?_) hprepared
  rw [bindings_of_bind hin rfl, get?_put_ne, hx]
  rintro rfl
  rw [hx] at hnone
  cases hnone

/-- The first time that an input which the step provides is taken up, with what held then and what
is left of it. -/
structure FirstTake (run : StepRun sub c i key d e) (a : String) (v : Doc) where
  before : Draft
  after : Draft
  taking : (provide c run.site before (.str a)).Yields after
  stated : before.HasIn i
  value : get? (bindings (before.step i)) a = some v
  defs : before.edgeDefs = run.named.edgeDefs
  inputs : ∀ k, has after.inputs k → has e.inputs k
  calls : ∀ k, Keyed.has after.edgeCalls k → Keyed.has e.edgeCalls k
  binding : isAuxiliary a = false → ∀ w, get? (bindings (after.step i)) a = some w →
    under? w aliasKey = none → under? w Yaml.inlineKey = none →
    get? (bindings (e.step i)) a = some w

theorem StepRun.firstTake (run : StepRun sub c i key d e) {v : Doc} (ha : .str a ∈ run.provided)
    (hv : get? (bindings (run.named.step i)) a = some v) : Nonempty (FirstTake run a v) := by
  obtain ⟨pre, post, f, g, -, hpre, hbefore, ⟨hf, hfg⟩, hrest⟩ := run.taking_in.first_split ha
  -- before the input is taken up for the first time, it has the value that it was given
  have hfirst : get? (bindings (f.step i)) a = some v := by
    refine hbefore.keeps (P := fun x => get? (bindings (x.step i)) a = some v) ?_ hv
    rintro k hk x y hxv ⟨hx, hy⟩
    obtain ⟨arg, val, val', z, rfl, -, -, hz, hcore, -⟩ := provide_taken hy
    refine ((hz.rebinds hcore).bindings_ne hx ?_).trans hxv
    rintro rfl
    exact hpre hk
  have hdefs : f.edgeDefs = run.named.edgeDefs := by
    refine hbefore.keeps (P := fun x => x.edgeDefs = run.named.edgeDefs) ?_ rfl
    rintro k - x y hx ⟨-, hy⟩
    obtain ⟨arg, val, val', z, -, -, -, hz, hcore, -⟩ := provide_taken hy
    rw [((hz.alongside).trans (.of_core hcore)).defs, hx]
  have hframe : Frame i g run.taken :=
    Frame.of_chain (fun _ _ _ h => Takes.frame ⟨h.1, provide_taken h.2⟩) hrest
  have hlast := hframe.trans (run.bound_frame.trans run.last_frame)
  refine ⟨⟨f, g, hfg, hf, hfirst, hdefs, hlast.inputs, hlast.calls,
    fun haux w hw halias hinline => ?_⟩⟩
  have htaken : get? (bindings (run.taken.step i)) a = some w := by
    refine hrest.keeps (P := fun x => get? (bindings (x.step i)) a = some w) ?_ hw
    rintro k - x y hxw ⟨hx, hy⟩
    obtain ⟨arg, val, val', z, rfl, hval, henc, hz, hcore, -⟩ := provide_taken hy
    by_cases harg : arg = a
    · subst harg
      cases hval.symm.trans hxw
      obtain rfl := encoded_eq henc hinline
      rw [step_congr (steps_of_core hcore)]
      exact hz.bindings_raw hx haux halias hinline
    · exact ((hz.rebinds hcore).bindings_ne hx harg).trans hxw
  rw [run.last_bindings]
  -- an input that is provided needs no other source
  refine run.bound_chain.keeps (P := fun x => get? (bindings (x.step i)) a = some w) ?_ htaken
  rintro arg - x y hxw ⟨hx, z, hz, hcore, -⟩
  by_cases harg : arg = a
  · subst harg
    rw [step_congr (steps_of_core hcore), hz.of_provided (any_eq_true.mpr ⟨_, ha, by simp⟩)]
    exact hxw
  · exact ((hz.rebinds hcore).bindings_ne hx harg).trans hxw

end Step

theorem StepIn.site_nameOf {sub : Compiler} {set : Setting} {t : Task} {r : Compiled}
    {run : OnceRun sub set t r} {i : Nat} {d e : Draft} (here : StepIn run i d e) :
    here.head.site.name = nameOf set t.flow i := by
  simp only [nameOf, here.keys_getD, run.opened, Option.bind_some, here.noted, Except.toOption,
    Option.elim_some]
  rfl

end WorkflowInference.Compile

namespace WorkflowInference.Compile

open Entries Result Namespaces
open Workflow (placeKey)

structure SearchAlike (keys : List String) (n : Nat) (d e : Draft) : Prop where
  notes : ∀ j < n, heldNote d.notes j (keys.getD j "") = heldNote e.notes j (keys.getD j "")
  tools : ∀ j < n, (d.tools[j]?).map Tool.cwl = (e.tools[j]?).map Tool.cwl
  scattered : ∀ j < n, (d.step j).holds "scatter" = (e.step j).holds "scatter"

section Search

variable {b c : Scope} {d e : Draft} {w : Wanted} {n : Nat}

theorem scanStep_congr (h : SearchAlike c.keys n d e) (hkeys : b.keys = c.keys) (hj : j < n) :
    scanStep c d w j = scanStep b e w j := by
  have hnote := h.notes j hj
  have htool := h.tools j hj
  unfold heldNote at hnote
  unfold scanStep
  dsimp only
  rw [hkeys, hnote, h.scattered j hj]
  generalize d.tools[j]? = x at htool
  generalize e.tools[j]? = y at htool
  cases x <;> cases y <;>
    simp only [Option.map_none, Option.map_some, reduceCtorEq, Option.some.injEq] at htool
  · rfl
  · simp only [Option.elim_some, bind, Except.bind, htool]

theorem searchSteps_congr (h : SearchAlike c.keys n d e) (hkeys : b.keys = c.keys)
    (hset : b.setting = c.setting) : searchSteps c d w arg n = searchSteps b e w arg n := by
  induction n with
  | zero => rfl
  | succ n ih =>
    have hrest : SearchAlike c.keys n d e :=
      ⟨fun j hj => h.notes j (by omega), fun j hj => h.tools j (by omega), fun j hj =>
        h.scattered j (by omega)⟩
    unfold searchSteps
    rw [scanStep_congr h hkeys (Nat.lt_succ_self n), ih hrest, hset]

end Search

/-- The annotation of a step as inference reads it. A workflow that is not equal to itself, because
of a value that is no number, counts as changed; then the annotations that it holds itself are read.
-/
def noteOf (yml : Doc) (i : Nat) : Doc :=
  let stated := (opened yml).elim (.map []) fun o =>
    (under? o.notes (placeKey i ((keysIn yml).getD i ""))).getD (.map [])
  (innerAt yml i).elim stated fun v =>
    if v.2 == v.2 then stated else Doc.obj [("wic", (under? v.2 "wic").getD (.map []))]

def notesOf (yml : Doc) : Doc :=
  Doc.obj ((List.range (keysIn yml).length).map fun (i : Nat) =>
    (placeKey i ((keysIn yml).getD i ""), noteOf yml i))

theorem heldNote_notesOf (hi : i < (keysIn yml).length) :
    heldNote (notesOf yml) i ((keysIn yml).getD i "") = .ok (noteOf yml i) := by
  have hget : ∀ is : List Nat, i ∈ is → get? (is.map fun (j : Nat) =>
      ((Doc.str (placeKey j ((keysIn yml).getD j "")), noteOf yml j) : Doc × Doc))
        (placeKey i ((keysIn yml).getD i "")) =
        some (noteOf yml i) := by
    intro is hmem
    induction is with
    | nil => cases hmem
    | cons j is ih =>
      by_cases hij : j = i
      · subst hij
        simp [get?]
      · have hne : placeKey j ((keysIn yml).getD j "") ≠ placeKey i ((keysIn yml).getD i "") :=
          fun heq =>
          hij (placeKey_inj heq).1
        rw [List.map_cons, get?, if_neg (by simpa using hne)]
        exact ih ((List.mem_cons.mp hmem).resolve_left (Ne.symm hij))
  have hall := hget (List.range (keysIn yml).length) (List.mem_range.mpr hi)
  simp only [heldNote, notesOf, Doc.obj, List.map_map, Function.comp_def, Doc.fieldD, getD, hall,
    Option.getD_some]

namespace PartTree

def runAt (q : PartTree) (i : Nat) : Doc := ((q.subs[i]?).map (·.part.cwl)).getD .null

def view (q : PartTree) (notes : Doc) : Draft :=
  { tree := [], steps := q.steps, notes, inputMapping := [], outputMapping := [], edgeDefs := []
    edgeCalls := [], graphs := [], tools := q.subs.map fun p => ⟨p.part.runPath, p.part.cwl⟩ }

def requiredAt (q : PartTree) (i : Nat) : List String :=
  ((do requiredArgs ⟨"",
    q.runAt i⟩ (← (q.runAt i).field "inputs") : Result (List String)).toOption).getD []

def bindingAt (q : PartTree) (i : Nat) (a : String) : Option Doc :=
  (q.steps[i]?).bind fun s => get? (bindings s) a

/-- The source that inference says for an input of a step: the output that it finds among the
earlier steps, or an input of the workflow. -/
def inferredAt (set : Setting) (w : String × Doc) (q : PartTree) (i : Nat) (a : String) :
    Result Doc := do
  let wanted ← wantedOf ((q.view (notesOf w.2)).step i) (q.runAt i) a
  let found ← searchSteps (scopeOf set w) (q.view (notesOf w.2)) wanted.2 a i
  let name (j : Nat) : String := stepName (Path.stem w.1) j ((keysIn w.2).getD j "")
  return .str (found.1.elim (name i ++ sep ++ a) fun x => name x.1 ++ "/" ++ x.2)

end PartTree

theorem noteAfter_self (h : (noteAfter i key yml yml notes note).Yields r)
    (hnote : heldNote notes i key = .ok note) :
    r.2 = (if yml == yml then note else Doc.obj [("wic", (under? yml "wic").getD (.map []))]) ∧
      heldNote r.1 i key = .ok r.2 := by
  rcases noteAfter_cases h with ⟨heq, rfl⟩ | ⟨hne, wic, es, hwic, -, rfl⟩
  · rw [if_pos heq]
    exact ⟨rfl, hnote⟩
  · rw [if_neg (by simp [hne]), ← fieldD_eq_ok hwic]
    exact ⟨rfl, by simp [heldNote, Doc.fieldD, getD]⟩

theorem nameStep_fields (h : nameStep c d m = .ok step) :
    ∃ es fs, d.step m = .map es ∧ step = .map fs ∧ ∀ l, l ≠ "id" → get? fs l = get? es l := by
  obtain ⟨noted, -, id, -, es, hes, h⟩ := of_bind₃ h
  rw [entries_eq_ok] at hes
  refine ⟨es, _, hes, (pure_eq_ok.mp h).symm, fun l hl => ?_⟩
  rw [get?, if_neg hl.symm, get?_remove_ne hl.symm]

theorem scatter_congr (h : get? fs "scatter" = get? es "scatter") :
    (Doc.map fs).holds "scatter" = (Doc.map es).holds "scatter" ∧
      ∀ v, (Doc.map fs).fieldD "scatter" v = (Doc.map es).fieldD "scatter" v := by
  simp [Doc.holds, has, Doc.fieldD, getD, h]

section Once

variable {set : Setting} {P : Nat → Draft → Prop}
  {d e : Draft} {m n : Nat}

theorem StepIn.note_eq {run : OnceRun sub set t r} {i : Nat} (here : StepIn run i d e)
    (hun : Unaltered r.tree t.flow) :
    here.head.inner = noteOf t.yml i ∧ heldNote e.notes i here.key = .ok (noteOf t.yml i) := by
  have hheld : heldNote d.notes i here.key = .ok here.head.note := by
    obtain ⟨note, hnote, h⟩ := of_bind here.head.noted
    obtain ⟨wic, -, space, -, h⟩ := of_bind₂ h
    rw [← (Prod.mk.inj (pure_eq_ok.mp h)).1]
    exact hnote
  have hstated := noteAt_note here.noted
  rw [here.head.entered.1, noteOf, here.keys_getD, run.opened, Option.elim_some, ← hstated]
  rcases here.head.brought_cases with ⟨⟨inner⟩⟩ | ⟨⟨tool⟩⟩
  · have hnoting := inner.noting
    rw [(here.inner_kept hun inner).yml] at hnoting
    obtain ⟨hinner, hnotes⟩ := noteAfter_self hnoting hheld
    dsimp only at hinner hnotes
    rw [(Draft.Alongside.of_core inner.brought).notes, (here.inner_spec inner).1,
      Option.elim_some, ← hinner]
    exact ⟨rfl, hnotes⟩
  · rw [here.innerAt_tool tool, Option.elim_none, tool.inner, tool.brought]
    exact ⟨rfl, hheld⟩

section

variable (run : OnceRun sub set t r)

include run

theorem OnceRun.heldNote_last (hun : Unaltered r.tree t.flow)
    (hm : m < run.start.keys.length) :
    heldNote run.last.notes m (run.start.keys.getD m "") = .ok (noteOf t.yml m) := by
  obtain ⟨place⟩ := run.placeAt hm
  rw [← run.keysIn_eq, place.here.keys_getD, place.later.notes m (Nat.le_refl m)]
  exact (place.here.note_eq hun).2

theorem OnceRun.step_fields (hm : m < run.start.keys.length) :
    ∃ es fs, run.last.step m = .map es ∧ r.tree.steps[m]? = some (.map fs) ∧
      ∀ l, l ≠ "id" → get? fs l = get? es l := by
  obtain ⟨step, hstep⟩ := run.exists_step hm
  obtain ⟨es, fs, hes, rfl, hfields⟩ := nameStep_fields (run.naming_at hstep).2
  exact ⟨es, fs, hes, hstep, hfields⟩

theorem OnceRun.runAt_eq (hm : m < run.start.keys.length) :
    ∃ tool p, run.last.tools[m]? = some tool ∧ r.tree.subs[m]? = some p ∧
      p.part.cwl = tool.cwl := by
  obtain ⟨place⟩ := run.placeAt hm
  obtain ⟨p, hp, hcwl⟩ := place.here.head.brought_parts
  exact ⟨_, p, place.tools_eq, place.here.subs_eq hp, hcwl⟩

theorem OnceRun.searchAlike_view (hun : Unaltered r.tree t.flow) (hn : n ≤ run.start.keys.length) :
    SearchAlike run.scope.keys n run.last (r.tree.view (notesOf t.yml)) := by
  constructor
  · intro j hj
    have hlen : j < (keysIn t.yml).length := by rw [run.keysIn_eq]; omega
    have hview := heldNote_notesOf hlen
    rw [run.keysIn_eq] at hview
    exact (run.heldNote_last hun (by omega)).trans hview.symm
  · intro j hj
    obtain ⟨tool, p, htool, hp, hcwl⟩ := run.runAt_eq (m := j) (by omega)
    simp [PartTree.view, htool, hp, hcwl]
  · intro j hj
    obtain ⟨es, fs, hes, hfs, hfields⟩ := run.step_fields (m := j) (by omega)
    have hview : (r.tree.view (notesOf t.yml)).step j = .map fs := by
      simp [PartTree.view, Draft.step, hfs]
    rw [hes, hview]
    exact (scatter_congr (hfields "scatter" (by decide))).1.symm

end

theorem SearchAlike.trans {keys : List String} {f : Draft} (h : SearchAlike keys n d e)
    (h' : SearchAlike keys n e f) : SearchAlike keys n d f :=
  ⟨fun j hj => (h.notes j hj).trans (h'.notes j hj), fun j hj =>
    (h.tools j hj).trans (h'.tools j hj),
    fun j hj => (h.scattered j hj).trans (h'.scattered j hj)⟩

variable {run : OnceRun sub set t r} {Q : Draft → Prop} {i : Nat} {a : String}

theorem StepAt.searchAlike_last (place : StepAt run P i) (last : LastSupply place.here.head Q a) :
    SearchAlike run.scope.keys i last.before run.last := by
  constructor
  · intro j hj
    rw [place.later.notes j (Nat.le_of_lt hj), last.notes]
  · intro j hj
    obtain ⟨rest, hrest⟩ := place.later.tools
    have hlen : place.after.tools.length = i + 1 := (place.here.progress.step place.here.head).tools
    rw [← hrest, List.getElem?_append_left (by omega), last.tools]
  · intro j hj
    rw [place.later.steps j (Nat.le_of_lt hj), last.others j (by omega)]

theorem StepAt.lt_length (place : StepAt run P i) : i < run.start.keys.length :=
  (List.getElem?_eq_some_iff.mp place.here.key_eq).1

theorem StepAt.runAt (place : StepAt run P i) : r.tree.runAt i = place.here.head.tool.cwl := by
  obtain ⟨tool, p, htool, hp, hcwl⟩ := run.runAt_eq place.lt_length
  rw [place.tools_eq] at htool
  cases htool
  rw [PartTree.runAt, hp, Option.map_some, Option.getD_some, hcwl]

theorem StepAt.requiredAt (place : StepAt run P i) :
    r.tree.requiredAt i = place.here.head.required := by
  have hparams : place.here.head.tool.cwl.field "inputs" = .ok place.here.head.params :=
    field_eq_ok.mpr place.here.head.params_eq
  have hrequired : requiredArgs ⟨"", place.here.head.tool.cwl⟩ place.here.head.params =
      .ok place.here.head.required := place.here.head.requiring
  rw [PartTree.requiredAt, place.runAt, hparams]
  change ((requiredArgs ⟨"", place.here.head.tool.cwl⟩ place.here.head.params).toOption).getD [] = _
  rw [hrequired]
  rfl

theorem OnceRun.bindingAt_eq (run : OnceRun sub set t r) (hi : i < run.start.keys.length) :
    r.tree.bindingAt i a = get? (bindings (run.last.step i)) a := by
  obtain ⟨es, fs, hes, hfs, hfields⟩ := run.step_fields hi
  have hbindings : bindings (.map fs) = bindings (run.last.step i) := by
    rw [hes]
    exact bindings_congr (hfields "in" (by decide))
  rw [PartTree.bindingAt, hfs, Option.bind_some, hbindings]

section

variable (place : StepAt run P i) (last : LastSupply place.here.head Q a)

include place last

theorem StepAt.bindingAt :
    r.tree.bindingAt i a = get? (bindings (last.after.step i)) a := by
  rw [run.bindingAt_eq place.lt_length, place.later.steps i (Nat.le_refl i), last.binding]

theorem StepAt.bindingAt_bind (hsteps : last.after.steps = (last.before.bind i a v).steps) :
    r.tree.bindingAt i a = some v := by
  rw [place.bindingAt last, Draft.get?_of_bind last.stated hsteps]

theorem StepAt.wantedOf_view (notes : Doc) :
    wantedOf ((r.tree.view notes).step i) (r.tree.runAt i) a =
      wantedOf (last.before.step i) place.here.head.tool.cwl a := by
  obtain ⟨es, fs, hes, hfs, hfields⟩ := run.step_fields place.lt_length
  have hview : (r.tree.view notes).step i = .map fs := by simp [PartTree.view, Draft.step, hfs]
  obtain ⟨ins, hins⟩ := Option.isSome_iff_exists.mp last.stated
  obtain ⟨gs, hgs, -⟩ := mem_of_under? hins
  have hscatter : get? fs "scatter" = get? gs "scatter" := by
    have hlast := last.fields "scatter" (by decide)
    rw [← place.later.steps i (Nat.le_refl i), hes, hgs] at hlast
    exact (hfields "scatter" (by decide)).trans hlast
  unfold wantedOf
  rw [hview, hgs, place.runAt, (scatter_congr hscatter).2]

theorem StepAt.inferredAt
    (hun : Unaltered r.tree t.flow) {sig : Entries} {w : Wanted}
    {found : Option (Nat × String)} {seen : List (List Candidate)}
    (hwanted : wantedOf (last.before.step i) place.here.head.tool.cwl a = .ok (sig, w))
    (hfound : searchSteps run.scope last.before w a i = .ok (found, seen)) {v : Doc}
    (hv : v = .str (found.elim (stepName run.scope.stem i (run.scope.keys.getD i "") ++ sep ++ a)
      fun x => stepName run.scope.stem x.1 (run.scope.keys.getD x.1 "") ++ "/" ++ x.2))
    (hsteps : last.after.steps = (last.before.bind i a v).steps) :
    r.tree.inferredAt set t.flow i a = .ok v ∧ r.tree.bindingAt i a = some v := by
  have halike :=
    (place.searchAlike_last last).trans (run.searchAlike_view hun (Nat.le_of_lt place.lt_length))
  constructor
  · rw [searchSteps_congr (b := scopeOf set t.flow) halike run.keysIn_eq rfl] at hfound
    rw [PartTree.inferredAt, place.wantedOf_view last, hwanted, hv]
    change (do let found ← searchSteps _ _ w a i; _) = _
    rw [hfound, run.keysIn_eq]
    rfl
  · exact place.bindingAt_bind last hsteps

end

end Once

end WorkflowInference.Compile
