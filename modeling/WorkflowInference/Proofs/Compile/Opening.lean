import WorkflowInference.Proofs.Compile.Draft

/-!
What a workflow is opened to: its steps, with their keys and annotations. It depends on the
document alone, so the workflows inside a workflow can be listed before anything is compiled.
-/
namespace WorkflowInference

open Entries Result Logged
open List hiding getD

namespace Workflow

variable {wic : Doc} {p : String} {r : Doc × Doc}

theorem implementation_surely (h : (implementation tree wic p).Yields r) :
    (implementation tree wic q).Surely r := by
  obtain ⟨several, hseveral, h⟩ := h.of_lift
  refine (surely_lift hseveral).bind ?_
  split at h
  · rename_i hyes
    rw [if_pos hyes]
    obtain ⟨name, hname, h⟩ := h.of_lift
    refine (surely_lift hname).bind ?_
    split at h
    · exact absurd h yields_throw
    rename_i hnamed
    rw [if_neg hnamed]
    obtain ⟨space, hspace, all, hall, h⟩ := h.of_bind₂
    rw [yields_lift] at hspace hall
    refine (surely_lift hspace).bind ((surely_lift hall).bind ?_)
    split at h
    · obtain ⟨-, -, -, -, -, -, h⟩ := h.of_bind₃
      exact absurd h yields_throw
    obtain ⟨steps, hsteps, es, hes, h⟩ := h.of_bind₂
    rw [yields_lift] at hsteps hes
    rw [← yields_pure.mp h]
    exact (surely_lift hsteps).bind ((surely_lift hes).bind (surely_pure _))
  · rename_i hno
    rw [if_neg hno]
    obtain ⟨own, hown, h⟩ := h.of_lift
    refine (surely_lift hown).bind ?_
    split at h
    · rename_i hyes
      rw [if_pos hyes, ← yields_pure.mp h]
      exact surely_pure _
    · exact absurd h yields_throw

def Offers (wic steps : Doc) : Prop :=
  ∃ impls k impl, Compile.under? wic "implementations" = some (.map impls) ∧ (k, impl) ∈ impls ∧
    Compile.under? impl "steps" = some steps

theorem Offers.inside (h : Offers wic steps) : Doc.Inside steps wic := by
  obtain ⟨impls, k, impl, hall, hmem, hsteps⟩ := h
  exact (Doc.Inside.value hmem (Compile.inside_of_under? hsteps)).trans
    (Compile.inside_of_under? hall)

theorem implementation_spec (h : (implementation (.map es) wic p).Yields r) :
    ∃ fs, r.2 = .map fs ∧ (∀ l, l ≠ "steps" → get? fs l = get? es l) ∧
      ∀ steps, get? fs "steps" = some steps → get? es "steps" = some steps ∨ Offers wic steps := by
  obtain ⟨several, -, h⟩ := h.of_bind
  split at h
  · obtain ⟨name, -, h⟩ := h.of_bind
    split at h
    · exact absurd h yields_throw
    obtain ⟨space, -, all, hall, h⟩ := h.of_bind₂
    rw [yields_lift, Compile.field_eq_ok] at hall
    split at h
    · obtain ⟨-, -, -, -, -, -, h⟩ := h.of_bind₃
      exact absurd h yields_throw
    rename_i impl himpl
    obtain ⟨steps, hsteps, fs, hfs, h⟩ := h.of_bind₂
    rw [yields_lift] at hsteps hfs
    cases hfs
    rw [← yields_pure.mp h]
    refine ⟨_, rfl, fun l hl => get?_put_ne hl.symm, ?_⟩
    intro steps' hsteps'
    rw [get?_put_self] at hsteps'
    cases hsteps'
    refine .inr ?_
    have himpl' : ∃ k as, all = .map as ∧ (k, impl) ∈ as := by
      unfold findImplementation at himpl
      split at himpl
      · obtain ⟨k, hk, -⟩ := mem_of_at? himpl
        exact ⟨k, _, rfl, hk⟩
      · cases himpl
    obtain ⟨k, as, rfl, hmem⟩ := himpl'
    exact ⟨as, k, impl, hall, hmem, Compile.field_eq_ok.mp hsteps⟩
  · obtain ⟨own, -, h⟩ := h.of_bind
    split at h
    · rw [← yields_pure.mp h]
      exact ⟨es, rfl, fun _ _ => rfl, fun steps hsteps => .inl hsteps⟩
    · exact absurd h yields_throw

end Workflow

namespace Compile

def headKeys : List String := ["cwlVersion", "class", "$namespaces", "$schemas", "steps", "wic"]

variable {es : Entries} {yml : Doc} {t : Task} {o : Opening} {i n : Nat} {w v : String × Doc}
  {is : List Nat}

theorem addHeader_spec (h : addHeader es = .ok fs) :
    (∀ l, l ∉ headKeys → get? fs l = get? es l) ∧ get? fs "class" = some (.str "Workflow") := by
  obtain ⟨spaces, -, schemas, -, h⟩ := of_bind₂ h
  split at h <;> rw [← pure_eq_ok.mp h] <;> refine ⟨?_, by simp [get?_put]⟩ <;>
    · intro l hl
      simp only [headKeys, mem_cons, not_or] at hl
      obtain ⟨h₁, h₂, h₃, h₄, -⟩ := hl
      simp only [get?_put_ne (Ne.symm h₁), get?_put_ne (Ne.symm h₂), get?_put_ne (Ne.symm h₃),
        get?_put_ne (Ne.symm h₄)]

def HasStep (yml step : Doc) : Prop :=
  ∃ steps, step ∈ steps ∧ (under? yml "steps" = some (.list steps) ∨
    ∃ wic, under? yml "wic" = some wic ∧ Workflow.Offers wic (.list steps))

theorem HasStep.inside (h : HasStep yml step) : Doc.Inside step yml := by
  obtain ⟨steps, hmem, hown | ⟨wic, hwic, hoffer⟩⟩ := h
  · exact (Doc.Inside.item hmem (.refl step)).trans (inside_of_under? hown)
  · exact (Doc.Inside.item hmem (.refl step)).trans (hoffer.inside.trans (inside_of_under? hwic))

structure Opens (yml : Doc) (o : Opening) : Prop where
  isMap : ∃ es, yml = .map es
  wic : o.wic = (under? yml "wic").getD (.map [])
  notes : o.notes = (under? o.wic "steps").getD (.map [])
  kept : ∀ l, l ∉ headKeys → get? o.tree l = under? yml l
  cls : get? o.tree "class" = some (.str "Workflow")
  keys_ne : o.keys ≠ []
  listed : ∀ s ∈ o.steps, HasStep yml s
  keys : o.steps = [] ∨ o.steps.map Workflow.stepKey = o.keys.map .str

theorem keysOf_spec {steps : Doc} {keys : List String} (h : keysOf steps = .ok keys) :
    ∃ xs, steps.members = .ok xs ∧ xs.map Workflow.stepKey = keys.map .str := by
  obtain ⟨xs, hxs, subs, -, h⟩ := of_bind₂ h
  exact ⟨xs, hxs, names_eq_ok h⟩

theorem openWorkflow_opens (h : (openWorkflow t).Yields o) : Opens t.yml o := by
  obtain ⟨es, hes, h⟩ := h.of_lift
  rw [entries_eq_ok] at hes
  obtain ⟨notes, hnotes, chosen, hchosen, h⟩ := h.of_bind₂
  obtain ⟨steps, hsteps, keys, hkeys, h⟩ := h.of_bind₂
  rw [yields_lift] at hnotes hsteps hkeys
  split at h
  · exact absurd h yields_throw
  rename_i hne
  obtain ⟨tree, htree, h⟩ := h.of_lift
  obtain ⟨fs, hfs, htree⟩ := of_bind htree
  rw [← yields_pure.mp h, hes]
  obtain ⟨gs, hgs, hrest, hoffered⟩ := Workflow.implementation_spec hchosen
  rw [entries_eq_ok, hgs] at hfs
  cases hfs
  obtain ⟨hkept, hcls⟩ := addHeader_spec htree
  obtain ⟨xs, hxs, hkeys⟩ := keysOf_spec hkeys
  refine ⟨⟨es, rfl⟩, rfl, ?_, ?_, hcls, by simpa using hne, ?_, ?_⟩
  · exact fieldD_eq_ok hnotes
  · intro l hl
    rw [hkept l hl, hrest l (by rintro rfl; exact hl (by decide)), under?_map,
      get?_remove_ne (by rintro rfl; exact hl (by decide))]
  · intro s hs
    cases steps with
    | list ys =>
      rw [field_eq_ok, hgs, under?_map] at hsteps
      refine ⟨ys, hs, ?_⟩
      rcases hoffered _ hsteps with hown | hwic
      · rw [get?_remove_ne (by decide)] at hown
        exact .inl hown
      · rw [annotations, getD] at hwic
        cases hget : get? es "wic" with
        | none =>
          rw [hget, Option.getD_none] at hwic
          obtain ⟨impls, k, impl, hall, -⟩ := hwic
          cases hall
        | some w =>
          rw [hget] at hwic
          exact .inr ⟨w, hget, hwic⟩
    | _ => simp [Doc.list?] at hs
  · cases steps with
    | list ys =>
      simp only [Doc.members, Except.ok.injEq] at hxs
      subst hxs
      exact .inr hkeys
    | _ => exact .inl rfl

theorem openWorkflow_surely (hyml : u.yml = t.yml) (h : (openWorkflow t).Yields o) :
    (openWorkflow u).Surely o := by
  unfold openWorkflow
  rw [hyml]
  obtain ⟨es, hes, notes, hnotes, chosen, hchosen, h⟩ := h.of_bind₃
  obtain ⟨steps, hsteps, keys, hkeys, h⟩ := h.of_bind₂
  rw [yields_lift] at hes hnotes hsteps hkeys
  split at h
  · exact absurd h yields_throw
  rename_i hne
  obtain ⟨tree, htree, h⟩ := h.of_lift
  refine (surely_lift hes).bind ((surely_lift hnotes).bind ?_)
  refine (Workflow.implementation_surely hchosen).bind ?_
  refine (surely_lift hsteps).bind ((surely_lift hkeys).bind ?_)
  rw [if_neg hne, ← yields_pure.mp h]
  exact (surely_lift htree).bind (surely_pure _)

def opened (yml : Doc) : Option Opening :=
  ((openWorkflow (.root "" yml (Graph.empty "" ""))).outcome {}).1.toOption

theorem opened_eq_some (h : (openWorkflow t).Yields o) : opened t.yml = some o := by
  have hyml : (Task.root "" t.yml (Graph.empty "" "")).yml = t.yml := rfl
  obtain ⟨u, hu⟩ := openWorkflow_surely hyml h {}
  rw [opened, hu]
  rfl

theorem yields_of_opened (h : opened yml = some o) :
    (openWorkflow (.root "" yml (Graph.empty "" ""))).Yields o := yields_of_toOption h

theorem opens_of_opened (h : opened yml = some o) : Opens yml o :=
  openWorkflow_opens (yields_of_opened h)

def innerAt (yml : Doc) (i : Nat) : Option (String × Doc) :=
  (opened yml).bind fun o => (o.keys[i]?).bind fun key => (o.steps[i]?).bind fun step =>
    if Workflow.isSubKey key then (under? step "subtree").map (key, ·) else none

theorem innerAt_eq_some (h : innerAt yml i = some w) :
    ∃ o, opened yml = some o ∧ o.keys[i]? = some w.1 ∧ Workflow.isSubKey w.1 ∧
      under? (o.steps.getD i .null) "subtree" = some w.2 := by
  obtain ⟨o, ho, h⟩ := Option.bind_eq_some_iff.mp h
  obtain ⟨key, hkey, h⟩ := Option.bind_eq_some_iff.mp h
  obtain ⟨step, hstep, h⟩ := Option.bind_eq_some_iff.mp h
  split at h
  · rename_i hsub
    obtain ⟨sub, hyml, rfl⟩ := Option.map_eq_some_iff.mp h
    refine ⟨o, ho, hkey, hsub, ?_⟩
    rw [getD_of_getElem? hstep, hyml]
  · cases h

theorem innerAt_of_step (ho : opened yml = some o) (hkey : o.keys[i]? = some key)
    (hsub : Workflow.isSubKey key) (hyml : under? (o.steps.getD i .null) "subtree" = some sub) :
    innerAt yml i = some (key, sub) := by
  cases hstep : o.steps[i]? with
  | none =>
    rw [getD_eq_getElem?_getD, hstep] at hyml
    simp [under?, Doc.map?] at hyml
  | some step =>
    rw [getD_of_getElem? hstep] at hyml
    simp [innerAt, ho, hkey, hstep, hsub, hyml]

theorem innerAt_depth (h : innerAt yml i = some w) : w.2.depth < yml.depth := by
  obtain ⟨o, ho, -, -, hsub⟩ := innerAt_eq_some h
  have hlt := depth_under? hsub
  have hmem : o.steps.getD i .null ∈ o.steps := by
    rw [getD_eq_getElem?_getD] at hsub ⊢
    cases hget : o.steps[i]? with
    | none =>
      rw [hget] at hsub
      cases hsub
    | some s => exact mem_of_getElem? hget
  exact Nat.lt_of_lt_of_le hlt ((opens_of_opened ho).listed _ hmem).inside.depth_le

def subAt (w : String × Doc) : List Nat → Option (String × Doc)
  | [] => some w
  | i :: is => (innerAt w.2 i).bind (subAt · is)

def withinIn : Nat → String × Doc → List (String × Doc)
  | 0, _ => []
  | n + 1, w =>
    w :: ((range ((opened w.2).elim 0 (·.keys.length))).filterMap (innerAt w.2)).flatMap
      (withinIn n)

def within (path : String) (yml : Doc) : List (String × Doc) := withinIn (yml.depth + 2) (path, yml)

theorem mem_withinIn_self (n : Nat) (w : String × Doc) : w ∈ withinIn (n + 1) w := mem_cons_self

theorem mem_withinIn_inner (h : innerAt w.2 i = some v) (hu : u ∈ withinIn n v) :
    u ∈ withinIn (n + 1) w := by
  obtain ⟨o, ho, hkey, -⟩ := innerAt_eq_some h
  refine mem_cons_of_mem _ (mem_flatMap.mpr ⟨v, mem_filterMap.mpr ⟨i, ?_, h⟩, hu⟩)
  rw [ho, mem_range]
  exact (List.getElem?_eq_some_iff.mp hkey).1

theorem mem_withinIn_subAt (hn : w.2.depth < n) (h : subAt w is = some v) :
    v ∈ withinIn n w := by
  induction is generalizing w n with
  | nil =>
    cases h
    obtain ⟨n, rfl⟩ : ∃ m, n = m + 1 := ⟨n - 1, by omega⟩
    exact mem_withinIn_self n _
  | cons i is ih =>
    obtain ⟨u, hu, h⟩ := Option.bind_eq_some_iff.mp h
    obtain ⟨n, rfl⟩ : ∃ m, n = m + 1 := ⟨n - 1, by omega⟩
    have hdepth := innerAt_depth hu
    exact mem_withinIn_inner hu (ih (by omega) h)

theorem mem_within_subAt (h : subAt (path, yml) is = some v) : v ∈ within path yml :=
  mem_withinIn_subAt (by change yml.depth < _; omega) h

def ownsSteps (yml : Doc) : Bool :=
  (((under? yml "wic").bind fun wic => under? wic "implementations").isNone)

theorem openWorkflow_own (hown : ownsSteps (.map es)) (hsteps : get? es "steps" = some (.list xs))
    (hnotes : (annotations es).fieldD "steps" (.map []) = .ok notes) (ht : t.yml = .map es) :
    openWorkflow t = (liftM (keysOf (.list xs)) >>= fun keys : List String =>
      if keys.isEmpty then throw Error.noSteps.failure else liftM (addHeader (remove es "wic")) >>=
      fun tree => pure ⟨annotations es, notes, tree, xs, keys⟩) := by
  have hnone : (annotations es).holds "implementations" = .ok false := by
    obtain ⟨ws, hws⟩ := fieldD_map hnotes
    rw [hws, Doc.holds, has]
    cases hwic : get? es "wic" with
    | none =>
      rw [annotations, getD, hwic] at hws
      cases hws
      rfl
    | some wic =>
      rw [annotations, getD, hwic] at hws
      cases hws
      simp only [ownsSteps, under?_map, hwic, Option.bind_some, Option.isNone_iff_eq_none] at hown
      rw [hown]
      rfl
  have hkept : get? (remove es "wic") "steps" = some (.list xs) := by
    rw [get?_remove_ne (by decide), hsteps]
  have hchosen : Workflow.implementation (.map (remove es "wic")) (annotations es)
      (Path.plain t.path) = pure (.str "", .map (remove es "wic")) := by
    rw [Workflow.implementation, hnone, Doc.holds, has, hkept]
    rfl
  have hfield : (Doc.map (remove es "wic")).field "steps" = .ok (.list xs) := by
    rw [field_eq_ok, under?_map, hkept]
  unfold openWorkflow
  rw [ht]
  change (liftM ((annotations es).fieldD "steps" (.map [])) : Logged Doc) >>= _ = _
  rw [hnotes]
  change Workflow.implementation (.map (remove es "wic")) (annotations es)
    (Path.plain t.path) >>= _ = _
  rw [hchosen]
  change (liftM ((Doc.map (remove es "wic")).field "steps") : Logged Doc) >>= _ = _
  rw [hfield]
  rfl

end Compile

end WorkflowInference
