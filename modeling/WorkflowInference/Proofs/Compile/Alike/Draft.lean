import WorkflowInference.Proofs.Compile.Ordinary

/-!
Two computations side by side. The second one follows the first when it succeeds wherever the first
does, with a value in a given relation to the first one's. The drafts are so related that agree in
all that the compiled document shows: they may differ in what is drawn, in the mappings, and in the
paths of the documents that their steps run. What is written into one can be written into the other.
-/
namespace WorkflowInference

open List

/-- The second computation succeeds where the first does, with a related value. -/
def Result.Follows {α β : Type} (R : α → β → Prop) (x : Result α) (y : Result β) : Prop :=
  ∀ a, x = .ok a → ∃ b, y = .ok b ∧ R a b

namespace Result.Follows

variable {α β γ δ ι : Type} {R : α → β → Prop} {S : γ → δ → Prop} {x : Result α} {y : Result β}
  {a : α} {b : β} {f : α → Result γ}

theorem of_eq {y : Result α} (h : y = x) : Follows Eq x y := fun a ha => ⟨a, h.trans ha, rfl⟩

theorem pure (h : R a b) : Follows R (Pure.pure a) (Pure.pure b) := by
  intro a' ha
  rw [← Result.pure_eq_ok.mp ha]
  exact ⟨b, rfl, h⟩

theorem throw : Follows R (MonadExcept.throw e) y := fun _ ha => by simp at ha

theorem bind {g : β → Result δ} (h : Follows R x y)
    (hf : ∀ a b, R a b → Follows S (f a) (g b)) : Follows S (x >>= f) (y >>= g) := by
  intro r hr
  obtain ⟨a, ha, hr⟩ := Result.of_bind hr
  obtain ⟨b, hb, hab⟩ := h a ha
  obtain ⟨s, hs, hrs⟩ := hf a b hab r hr
  exact ⟨s, Result.bind_eq_ok.mpr ⟨b, hb, hs⟩, hrs⟩

theorem bind_eq {y : Result α} {g : α → Result δ} (h : y = x)
    (hf : ∀ a, x = .ok a → Follows S (f a) (g a)) : Follows S (x >>= f) (y >>= g) := by
  subst h
  intro r hr
  obtain ⟨a, ha, hr⟩ := Result.of_bind hr
  obtain ⟨s, hs, hrs⟩ := hf a ha r hr
  exact ⟨s, Result.bind_eq_ok.mpr ⟨a, ha, hs⟩, hrs⟩

theorem bind_same {g : α → Result δ} (hf : ∀ a, Follows S (f a) (g a)) :
    Follows S (x >>= f) (x >>= g) :=
  bind_eq rfl fun a _ => hf a

theorem imp {T : α → β → Prop} (h : Follows R x y) (hT : ∀ a b, R a b → T a b) :
    Follows T x y := by
  intro a ha
  obtain ⟨b, hb, hab⟩ := h a ha
  exact ⟨b, hb, hT a b hab⟩

theorem and_left {P : α → Prop} (h : Follows R x y) (hP : ∀ a, x = .ok a → P a) :
    Follows (fun a b => P a ∧ R a b) x y := by
  intro a ha
  obtain ⟨b, hb, hab⟩ := h a ha
  exact ⟨b, hb, hP a ha, hab⟩

theorem foldlM {is : List ι} {f : α → ι → Result α} {g : β → ι → Result β} (hab : R a b)
    (h : ∀ i ∈ is, ∀ a b, R a b → Follows R (f a i) (g b i)) :
    Follows R (is.foldlM f a) (is.foldlM g b) := by
  induction is generalizing a b with
  | nil => exact pure hab
  | cons i is ih =>
    rw [foldlM_cons, foldlM_cons]
    refine (h i mem_cons_self a b hab).bind fun a' b' hab' => ?_
    exact ih hab' fun j hj => h j (mem_cons_of_mem _ hj)

theorem mapM {is : List ι} {f : ι → Result α} {g : ι → Result β}
    (h : ∀ i ∈ is, Follows R (f i) (g i)) : Follows (List.Forall₂ R) (is.mapM f) (is.mapM g) := by
  induction is with
  | nil => exact pure .nil
  | cons i is ih =>
    rw [mapM_cons, mapM_cons]
    refine (h i mem_cons_self).bind fun a b hab => ?_
    refine (ih fun j hj => h j (mem_cons_of_mem _ hj)).bind fun as bs has => ?_
    exact pure (.cons hab has)

end Result.Follows

/-- The second computation does not fail when the first can succeed, and has a related value unless
it goes on for ever. -/
def Logged.Follows {α β : Type} (R : α → β → Prop) (x : Logged α) (y : Logged β) : Prop :=
  ∀ a, x.Yields a → y.Comes (R a)

namespace Logged.Follows

variable {α β γ δ : Type} {R : α → β → Prop} {S : γ → δ → Prop} {x : Logged α} {y : Logged β}
  {a : α} {b : β}

theorem lift {x : Result α} {y : Result β} (h : Result.Follows R x y) :
    Follows R (liftM x : Logged α) (liftM y : Logged β) := by
  intro a ha
  obtain ⟨b, hb, hab⟩ := h a (yields_lift.mp ha)
  exact (surely_lift hb).comes hab

theorem pure (h : R a b) : Follows R (Pure.pure a) (Pure.pure b) := by
  intro a' ha
  rw [← yields_pure.mp ha]
  exact (surely_pure b).comes h

theorem throw : Follows R (MonadExcept.throw e) y := fun _ ha => absurd ha yields_throw

theorem bind {f : α → Logged γ} {g : β → Logged δ} (h : Follows R x y)
    (hf : ∀ a b, R a b → Follows S (f a) (g b)) : Follows S (x >>= f) (y >>= g) := by
  intro r hr
  obtain ⟨a, ha, hr⟩ := hr.of_bind
  exact (h a ha).bind fun b hab => hf a b hab r hr

theorem lift_eq {r s : Result α} {f : α → Logged γ} {g : α → Logged δ} (h : s = r)
    (hf : ∀ a, r = .ok a → Follows S (f a) (g a)) :
    Follows S ((liftM r : Logged α) >>= f) ((liftM s : Logged α) >>= g) := by
  subst h
  intro c hc
  obtain ⟨a, ha, hc⟩ := hc.of_lift
  exact (surely_lift ha).bind_comes (hf a ha c hc)

theorem lift_bind {x : Result α} {y : Result β} {f : α → Result γ} {g : β → Result δ}
    (h : Result.Follows R x y)
    (hf : ∀ a b, R a b → Follows S (liftM (f a) : Logged γ) (liftM (g b) : Logged δ)) :
    Follows S (liftM (x >>= f) : Logged γ) (liftM (y >>= g) : Logged δ) := by
  intro c hc
  obtain ⟨a, ha, hc⟩ := Result.of_bind (yields_lift.mp hc)
  obtain ⟨b, hb, hab⟩ := h a ha
  have hg : (y >>= g) = g b := by
    rw [hb]
    rfl
  rw [hg]
  exact hf a b hab c (yields_lift.mpr hc)

theorem and_left {P : α → Prop} (h : Follows R x y) (hP : ∀ a, x.Yields a → P a) :
    Follows (fun a b => P a ∧ R a b) x y := fun a ha => (h a ha).imp fun _ _ hab => ⟨hP a ha, hab⟩

theorem print (k l : String) : Follows (fun _ _ => True) (Logged.print k) (Logged.print l) :=
  fun _ _ => (surely_print l).comes trivial

theorem printIf (p q : Bool) (k l : String) :
    Follows (fun _ _ => True) (Logged.printIf p k) (Logged.printIf q l) :=
  fun _ _ => (surely_printIf q l).comes trivial

theorem chain {ι : Type} {is : List ι} {f : α → ι → Logged α} {g : β → ι → Logged β} {a' : α}
    (hc : Chain (fun i s t => (f s i).Yields t) is a a') (hab : R a b)
    (h : ∀ i ∈ is, ∀ a b, R a b → Follows R (f a i) (g b i)) : (is.foldlM g b).Comes (R a') := by
  induction hc generalizing b with
  | nil a => exact (surely_pure b).comes hab
  | @cons i is s t r head _ ih =>
    rw [foldlM_cons]
    refine (h i mem_cons_self s b hab t head).bind fun b₁ htb => ?_
    exact ih htb fun j hj => h j (mem_cons_of_mem _ hj)

end Logged.Follows

end WorkflowInference

namespace WorkflowInference.Compile

open Entries Result

def maskValue (k v : Doc) : Doc := if k == .str "run" && v.isStr then .str "" else v

def mask (es : Entries) : Entries := es.map fun e => (e.1, maskValue e.1 e.2)

def masked : Doc → Doc
  | .map es => .map (mask es)
  | d => d

section Mask

variable {es fs : Entries} {k : String} {v : Doc}

@[simp] theorem maskValue_isStr (k v : Doc) : (maskValue k v).isStr = v.isStr := by
  unfold maskValue
  split
  · rename_i h
    rw [(Bool.and_eq_true_iff.mp h).2]
    rfl
  · rfl

theorem maskValue_of_ne (hk : k ≠ "run") : maskValue (.str k) v = v := by
  have : (Doc.str k == .str "run") = false := by
    rw [Bool.eq_false_iff, ne_eq, Doc.beq_str_iff]
    exact fun h => hk (Doc.str.inj h)
  rw [maskValue, this, Bool.false_and]
  rfl

theorem maskValue_run (path : String) : maskValue (.str "run") (.str path) = .str "" := by
  have : (Doc.str "run" == .str "run") := Doc.beq_str_iff.mpr rfl
  rw [maskValue, this]
  rfl

theorem get?_mask : Entries.get? (mask es) k = (Entries.get? es k).map (maskValue (.str k)) := by
  induction es with
  | nil => rfl
  | cons e es ih =>
    obtain ⟨l, w⟩ := e
    by_cases hl : l = .str k
    · simp [mask, Entries.get?, hl]
    · simpa [mask, get?_cons_ne hl] using ih

theorem mask_put : mask (Entries.put es k v) = Entries.put (mask es) k (maskValue (.str k) v) := by
  induction es with
  | nil => rfl
  | cons e es ih =>
    obtain ⟨l, w⟩ := e
    by_cases hl : l = .str k
    · simp [mask, Entries.put, hl]
    · simpa [mask, put_cons_ne hl] using ih

theorem mask_remove : mask (remove es k) = remove (mask es) k := by
  induction es with
  | nil => rfl
  | cons e es ih =>
    obtain ⟨l, w⟩ := e
    unfold mask at ih ⊢
    cases l with
    | str s =>
      by_cases hs : s = k
      · simp [remove, hs]
      · simpa [remove, hs] using ih
    | _ => simpa [remove] using ih

end Mask

def StepAlike (s t : Doc) : Prop := masked s = masked t

namespace StepAlike

variable {s t x : Doc} {es fs : Entries} {k arg key : String}

theorem refl (s : Doc) : StepAlike s s := rfl

theorem get? (h : mask es = mask fs) (hk : k ≠ "run") : Entries.get? fs k = Entries.get? es k := by
  have hget : Entries.get? (mask es) k = Entries.get? (mask fs) k := by rw [h]
  have hid : maskValue (.str k) = id := funext fun v => maskValue_of_ne hk
  rw [get?_mask, get?_mask, hid, Option.map_id, id, id] at hget
  exact hget.symm

theorem put (h : StepAlike (.map es) (.map fs))
    (hxy : maskValue (.str k) x = maskValue (.str k) y) :
    StepAlike (.map (Entries.put es k x)) (.map (Entries.put fs k y)) := by
  have h : mask es = mask fs := Doc.map.inj h
  exact congrArg Doc.map (by rw [mask_put, mask_put, h, hxy])

theorem put_same (h : StepAlike (.map es) (.map fs)) :
    StepAlike (.map (Entries.put es k x)) (.map (Entries.put fs k x)) :=
  h.put rfl

variable (h : StepAlike s t)

include h

theorem cases : s = t ∨ ∃ es fs, s = .map es ∧ t = .map fs ∧ mask es = mask fs := by
  unfold StepAlike at h
  cases s with
  | map es =>
    cases t with
    | map fs => exact .inr ⟨es, fs, rfl, rfl, Doc.map.inj h⟩
    | _ => cases h
  | _ =>
    cases t with
    | map fs => cases h
    | _ => exact .inl h

theorem under? (hk : k ≠ "run") : under? t k = Compile.under? s k := by
  rcases h.cases with rfl | ⟨es, fs, rfl, rfl, hm⟩
  · rfl
  · exact get? hm hk

theorem field (hk : k ≠ "run") : t.field k = s.field k := by
  rcases h.cases with rfl | ⟨es, fs, rfl, rfl, hm⟩
  · rfl
  · rw [Doc.field, get? hm hk, Doc.field]

theorem fieldD (hk : k ≠ "run") : t.fieldD k x = s.fieldD k x := by
  rcases h.cases with rfl | ⟨es, fs, rfl, rfl, hm⟩
  · rfl
  · rw [Doc.fieldD, getD, get? hm hk, Doc.fieldD, getD]

theorem holds (hk : k ≠ "run") : t.holds k = s.holds k := by
  rcases h.cases with rfl | ⟨es, fs, rfl, rfl, hm⟩
  · rfl
  · rw [Doc.holds, has, get? hm hk, Doc.holds, has]

theorem run_isStr :
    Result.Follows (fun a b => b.isStr = a.isStr) (s.fieldD "run" (.str ""))
      (t.fieldD "run" (.str "")) := by
  rcases h.cases with rfl | ⟨es, fs, rfl, rfl, hm⟩
  · exact (Result.Follows.of_eq rfl).imp fun a b hab => by rw [hab]
  · rintro a ha
    cases ha
    refine ⟨_, rfl, ?_⟩
    dsimp only
    have hget : Entries.get? (mask es) "run" = Entries.get? (mask fs) "run" := by rw [hm]
    rw [get?_mask, get?_mask] at hget
    unfold getD
    cases hes : Entries.get? es "run" with
    | none =>
      rw [hes, Option.map_none, eq_comm, Option.map_eq_none_iff] at hget
      rw [hget]
    | some v =>
      rw [hes, Option.map_some, eq_comm, Option.map_eq_some_iff] at hget
      obtain ⟨w, hw, hmask⟩ := hget
      rw [hw, Option.getD_some, Option.getD_some, ← maskValue_isStr (.str "run") w, hmask,
        maskValue_isStr]

theorem bindings : bindings t = Compile.bindings s := bindings_congr (h.under? (by decide))

theorem bindInput : StepAlike (bindInput s arg x) (Compile.bindInput t arg x) := by
  rw [Compile.bindInput, Compile.bindInput, h.bindings]
  rcases h.cases with rfl | ⟨es, fs, rfl, rfl, hm⟩
  · rfl
  · exact put_same (congrArg Doc.map hm)

theorem eq_or_cons :
    s = t ∨ ∃ e es f fs, s = .map (e :: es) ∧ t = .map (f :: fs) ∧
      mask (e :: es) = mask (f :: fs) := by
  rcases h.cases with rfl | ⟨_ | ⟨e, es⟩, _ | ⟨f, fs⟩, rfl, rfl, hm⟩
  · exact .inl rfl
  · exact .inl rfl
  · cases hm
  · cases hm
  · exact .inr ⟨e, es, f, fs, rfl, rfl, hm⟩

theorem addIn {new : Entries} :
    Result.Follows StepAlike (Workflow.addIn s key new) (Workflow.addIn t key new) := by
  rcases h.eq_or_cons with rfl | ⟨e, es, f, fs, rfl, rfl, hm⟩
  · exact (Result.Follows.of_eq rfl).imp fun a b hab => hab ▸ .refl a
  · simp only [Workflow.addIn, get? hm (k := "in") (by decide)]
    cases Entries.get? (e :: es) "in" with
    | none => exact .pure h.put_same
    | some v =>
      cases v with
      | map old => exact .pure h.put_same
      | _ => exact .throw

theorem addOut {names : List String} :
    Result.Follows StepAlike (Workflow.addOut s key names) (Workflow.addOut t key names) := by
  rcases h.eq_or_cons with rfl | ⟨e, es, f, fs, rfl, rfl, hm⟩
  · exact (Result.Follows.of_eq rfl).imp fun a b hab => hab ▸ .refl a
  · simp only [Workflow.addOut, get? hm (k := "out") (by decide)]
    cases Entries.get? (e :: es) "out" with
    | none => exact .pure h.put_same
    | some v => exact .bind_same fun old => .pure h.put_same

omit h in
theorem isMap (h : StepAlike (.map es) t) : ∃ fs, t = .map fs := by
  rcases h.cases with rfl | ⟨-, fs, -, rfl, -⟩
  · exact ⟨es, rfl⟩
  · exact ⟨fs, rfl⟩

end StepAlike

structure ToolAlike (t v : Tool) : Prop where
  runPath : v.runPath = t.runPath
  field : ∀ k, k = "class" ∨ k = "inputs" ∨ k = "outputs" → v.cwl.field k = t.cwl.field k

theorem ToolAlike.refl (t : Tool) : ToolAlike t t := ⟨rfl, fun _ _ => rfl⟩

/-- Drafts that agree in what the compiled document shows, with so many graphs each. -/
structure Alike (m n : Nat) (d e : Draft) : Prop where
  tree : e.tree = d.tree
  notes : e.notes = d.notes
  inputs : e.inputs = d.inputs
  given : e.given = d.given
  outputs : e.outputs = d.outputs
  steps : List.Forall₂ StepAlike d.steps e.steps
  tools : List.Forall₂ ToolAlike d.tools e.tools
  firsts : e.firsts.length = d.firsts.length
  calls : ∀ k, Keyed.has e.edgeCalls k → isPathName k
  graphs : d.graphs.length = m
  graphs' : e.graphs.length = n

structure Drawn (d e : Draft) : Prop where
  core : e.core = d.core
  graphs : e.graphs.length = d.graphs.length
  firsts : e.firsts = d.firsts

namespace Drawn

variable {d e f : Draft}

theorem refl (d : Draft) : Drawn d d := ⟨rfl, rfl, rfl⟩

theorem trans (h : Drawn d e) (h' : Drawn e f) : Drawn d f :=
  ⟨h'.core.trans h.core, h'.graphs.trans h.graphs, h'.firsts.trans h.firsts⟩

theorem onOwn (d : Draft) (f : Graph → Graph) : Drawn d (d.onOwn f) := by
  refine ⟨Draft.core_onOwn f, ?_, ?_⟩
  · dsimp only [Draft.onOwn]
    split
    · exact List.length_set
    · rfl
  · dsimp only [Draft.onOwn]
    split <;> rfl

theorem onView (d : Draft) (f : GraphData → GraphData) : Drawn d (d.onView f) := by
  unfold Draft.onView
  split
  · exact onOwn d _
  · exact ⟨rfl, rfl, rfl⟩

theorem addNode (h : d.addNode name attrs = .ok e) : Drawn d e := by
  obtain ⟨texts, -, rfl⟩ := of_map h
  exact (onOwn d _).trans (onView _ _)

end Drawn

namespace Alike

variable {m n : Nat} {d e d' e' : Draft} {i : Nat} {k arg : String} {s t x y : Doc}
  (h : Alike m n d e)

include h

theorem drawn (hd : Drawn d d') (he : Drawn e e') : Alike m n d' e' := by
  have hcore : ∀ {α : Type} (f : Draft → α), (∀ x y : Draft, x.core = y.core → f x = f y) →
      f e = f d → f e' = f d' := by
    intro α f hf heq
    rw [hf e' e he.core, heq, hf d' d hd.core]
  exact
    { tree := hcore Draft.tree (fun _ _ hx => (congrArg Draft.tree hx :)) h.tree
      notes := hcore Draft.notes (fun _ _ hx => (congrArg Draft.notes hx :)) h.notes
      inputs := hcore Draft.inputs (fun _ _ hx => (congrArg Draft.inputs hx :)) h.inputs
      given := hcore Draft.given (fun _ _ hx => (congrArg Draft.given hx :)) h.given
      outputs := hcore Draft.outputs (fun _ _ hx => (congrArg Draft.outputs hx :)) h.outputs
      steps := Draft.steps_of_core hd.core ▸ Draft.steps_of_core he.core ▸ h.steps
      tools :=
        (Draft.Alongside.of_core hd.core).tools ▸ (Draft.Alongside.of_core he.core).tools ▸ h.tools
      firsts := hd.firsts ▸ he.firsts ▸ h.firsts
      calls := Draft.calls_of_core he.core ▸ h.calls
      graphs := hd.graphs.trans h.graphs
      graphs' := he.graphs.trans h.graphs' }

theorem step (i : Nat) : StepAlike (d.step i) (e.step i) := by
  rw [Draft.step, Draft.step, List.getD_eq_getElem?_getD, List.getD_eq_getElem?_getD]
  rcases forall₂_getElem? h.steps i with ⟨hx, hy⟩ | ⟨x, y, hx, hy, hxy⟩
  · rw [hx, hy]
    exact .refl _
  · rw [hx, hy]
    exact hxy

theorem setStep (hst : StepAlike s t) : Alike m n (d.setStep i s) (e.setStep i t) := by
  refine { h with steps := ?_ }
  have hall := h.steps
  simp only [Draft.setStep]
  generalize d.steps = xs at hall
  generalize e.steps = ys at hall
  induction hall generalizing i with
  | nil => exact .nil
  | cons hxy hrest ih =>
    cases i with
    | zero => exact .cons hst hrest
    | succ i => exact .cons hxy ih

theorem tool (j : Nat) : d.tools[j]? = none ∧ e.tools[j]? = none ∨
    ∃ t v, d.tools[j]? = some t ∧ e.tools[j]? = some v ∧ ToolAlike t v := forall₂_getElem? h.tools j

theorem declare : Alike m n (d.declare k x) (e.declare k x) :=
  { h with inputs := by rw [Draft.declare, Draft.declare, h.inputs] }

theorem give : Alike m n (d.give k x) (e.give k x) :=
  { h with given := by rw [Draft.give, Draft.give, h.given] }

theorem ins (i : Nat) : e.ins i = d.ins i := (h.step i).field (by decide)

theorem ownInputs : e.ownInputs = d.ownInputs := by rw [Draft.ownInputs, h.tree, Draft.ownInputs]

theorem setPart (hxy : maskValue (.str k) x = maskValue (.str k) y) :
    Result.Follows (Alike m n) (d.setPart i k x) (e.setPart i k y) := by
  intro d' hd'
  obtain ⟨es, hes, rfl⟩ := Draft.setPart_eq_ok hd'
  have hstep := h.step i
  rw [hes] at hstep
  obtain ⟨fs, hfs⟩ := hstep.isMap
  rw [hfs] at hstep
  refine ⟨e.setStep i (.map (Entries.put fs k y)), by rw [Draft.setPart, hfs], ?_⟩
  exact h.setStep (hstep.put hxy)

theorem setIn : Result.Follows (Alike m n) (d.setIn i arg x) (e.setIn i arg x) := by
  intro d' hd'
  obtain ⟨⟨ins, hins⟩, rfl⟩ := Draft.setIn_eq_ok hd'
  have hins' : under? (e.step i) "in" = some (.map ins) := by
    rw [(h.step i).under? (by decide), hins]
  exact ⟨_, Draft.setIn_of_in hins', h.setStep (h.step i).bindInput⟩

theorem addIn :
    Result.Follows (fun s t => Alike m n (d.setStep i s) (e.setStep i t))
      (Workflow.addIn (d.step i) key new)
      (Workflow.addIn (e.step i) key new) :=
  (h.step i).addIn.imp fun _ _ hst => h.setStep hst

theorem addNode : Result.Follows (Alike m n) (d.addNode a attrs) (e.addNode b attrs) := by
  intro d' hd'
  obtain ⟨texts, htexts, -⟩ := of_bind hd'
  have he' : ∃ e', e.addNode b attrs = .ok e' := ⟨_, bind_eq_ok.mpr ⟨texts, htexts, rfl⟩⟩
  obtain ⟨e', he'⟩ := he'
  exact ⟨e', he', h.drawn (.addNode hd') (.addNode he')⟩

end Alike

end WorkflowInference.Compile
