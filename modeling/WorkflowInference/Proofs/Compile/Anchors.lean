import WorkflowInference.Proofs.Compile.Reading

/-!
The names that steps give to outputs. They are entered in one table while the steps are compiled, a
workflow among the steps before the step that it is; so the table tells which steps, in the order in
which steps are compiled, have named an output so far, and where they stand. A reference to a name
that no output has is rejected in a step of the root workflow; inside a workflow among the steps it
is left open: the input becomes one of that workflow, and nothing asks for its definition any more.
-/
namespace WorkflowInference.Compile

open Keyed

variable {name key : String} {c : Scope} {D : String × EdgeSite → Prop}

/-- A name that is given to an output by one of the first steps of a workflow, or inside of them,
with the place of the output. -/
inductive Anchored (set : Setting) : String × Doc → Namespaces → Nat → String → EdgeSite → Prop
  | own {w : String × Doc} {ns : Namespaces} {n i : Nat} {name out : String} (hi : i < n)
      (hlt : i < (keysIn w.2).length) (h : (name, out) ∈ anchorsOf (statedStep w.2 i)) :
      Anchored set w ns n name ⟨ns ++ [nameOf set w i], out⟩
  | inner {w v : String × Doc} {ns : Namespaces} {n i m : Nat} {name : String} {site : EdgeSite}
      (hi : i < n) (hv : innerAt w.2 i = some v)
      (h : Anchored set v (ns ++ [nameOf set w i]) m name site) : Anchored set w ns n name site

theorem Anchored.mono {set : Setting} {w : String × Doc} {ns : Namespaces} {m n : Nat}
    {site : EdgeSite} (h : Anchored set w ns m name site) (hmn : m ≤ n) :
    Anchored set w ns n name site := by
  cases h with
  | own hi hlt h => exact .own (by omega) hlt h
  | inner hi hv h => exact .inner (by omega) hv h

theorem mem_enterAnchors (h : e ∈ enterAnchors path anchors es) :
    e ∈ es ∨ ∃ a ∈ anchors, e = (a.1, ⟨path, a.2⟩) := by
  induction anchors generalizing es with
  | nil => exact .inl h
  | cons a as ih =>
    rcases ih h with h | ⟨b, hb, rfl⟩
    · rcases Keyed.mem_put h with h | rfl
      · exact .inl h
      · exact .inr ⟨a, List.mem_cons_self, rfl⟩
    · exact .inr ⟨b, List.mem_cons_of_mem _ hb, rfl⟩

section Step

variable {set : Setting} {run : OnceRun sub set t r} {i : Nat}
  {d e : Draft}

theorem StepRun.named_defs (head : StepRun sub c i key d e) :
    head.named.edgeDefs =
      enterAnchors (c.path head.site) (anchorsOf (head.brought.step i)) head.brought.edgeDefs := by
  obtain ⟨-, fs, calls, hprepared, -⟩ := prepare_spec head.preparing
  have hdefs : head.prepared.edgeDefs = head.brought.edgeDefs :=
    (congrArg Draft.edgeDefs hprepared :)
  rw [head.named_spec.2.1, hdefs]

theorem StepRun.last_defs (head : StepRun sub c i key d e) : e.edgeDefs = head.named.edgeDefs := by
  obtain ⟨outs, sigs, -, -, s, hlast, -⟩ := head.closed_spec
  exact (congrArg Draft.edgeDefs hlast :).trans head.alongside.defs

theorem StepRun.named_has (head : StepRun sub c i key d e)
    (h : has d.edgeDefs name) : has head.named.edgeDefs name := by
  rw [head.named_defs, has_enterAnchors]
  rcases head.brought_cases with ⟨⟨inner⟩⟩ | ⟨⟨tool⟩⟩
  · rw [(Draft.Alongside.of_core inner.brought).defs]
    exact .inl (has_update.mpr (.inl h))
  · rw [tool.brought]
    exact .inl h

theorem StepIn.brought_defs (here : StepIn run i d e)
    (hinner : ∀ inner : SubRun here.head, ∀ x ∈ inner.result.env.edgeDefs, D x ∨
      ∃ m, Anchored set (here.key, inner.yml) (t.namespaces ++ [nameOf set t.flow i]) m x.1 x.2)
    (hd : ∀ x ∈ d.edgeDefs, D x) :
    ∀ x ∈ here.head.brought.edgeDefs, D x ∨ ∃ v m, innerAt t.yml i = some v ∧
      Anchored set v (t.namespaces ++ [nameOf set t.flow i]) m x.1 x.2 := by
  intro x hx
  rcases here.head.brought_cases with ⟨⟨inner⟩⟩ | ⟨⟨tool⟩⟩
  · rw [(Draft.Alongside.of_core inner.brought).defs] at hx
    rcases mem_update hx with hx | hx
    · exact .inl (hd x hx)
    · exact (hinner inner x hx).imp_right fun ⟨m, hm⟩ => ⟨_, m, (here.inner_spec inner).1, hm⟩
  · rw [tool.brought] at hx
    exact .inl (hd x hx)

theorem StepIn.anchored (here : StepIn run i d e) (hun : Unaltered r.tree t.flow)
    (hinner : ∀ inner : SubRun here.head, ∀ x ∈ inner.result.env.edgeDefs,
      (D x ∨ Anchored set t.flow t.namespaces i x.1 x.2) ∨
      ∃ m, Anchored set (here.key, inner.yml) (t.namespaces ++ [nameOf set t.flow i]) m x.1 x.2)
    (hd : ∀ x ∈ d.edgeDefs, D x ∨ Anchored set t.flow t.namespaces i x.1 x.2) :
    ∀ x ∈ e.edgeDefs, D x ∨ Anchored set t.flow t.namespaces (i + 1) x.1 x.2 := by
  intro x hx
  rw [here.head.last_defs, here.head.named_defs, here.brought_step hun] at hx
  rcases mem_enterAnchors hx with hx | ⟨a, ha, rfl⟩
  · rcases here.brought_defs hinner hd x hx with h | ⟨v, m, hv, h⟩
    · exact h.imp_right fun h => h.mono (Nat.le_succ i)
    · exact .inr (.inner (Nat.lt_succ_self i) hv h)
  · have hpath : run.scope.path here.head.site = t.namespaces ++ [nameOf set t.flow i] := by
      rw [Scope.path, here.site_nameOf]
      rfl
    rw [hpath]
    exact .inr (.own (Nat.lt_succ_self i) here.lt_length ha)

end Step

section Nested

variable {set : Setting} {n i : Nat} {t : Task} {r : Compiled} {d e : Draft}

theorem Faithful.anchored (h : Faithful set n t r) (ht : ∀ x ∈ t.edgeDefs, D x) :
    ∀ x ∈ r.env.edgeDefs, D x ∨ ∃ m, Anchored set t.flow t.namespaces m x.1 x.2 := by
  induction h using Faithful.induction generalizing D with
  | @step _ t r h run ih =>
    obtain ⟨concl⟩ := run.concluded
    rw [concl.defs]
    have hlast := run.keeps_steps
      (P := fun j d => ∀ x ∈ d.edgeDefs, D x ∨ Anchored set t.flow t.namespaces j x.1 x.2)
      (fun j d e here hd => here.anchored h.kept (fun inner => ?_) hd) fun x hx => .inl (ht x hx)
    · exact fun x hx => (hlast x hx).imp_right fun h => ⟨_, h⟩
    · have hinner := ih (here.inner_faithful h.kept inner) hd
      rw [subTask, here.site_nameOf] at hinner
      exact hinner

theorem StepIn.inner_anchored {run : OnceRun (compileAt set n) set t r} (here : StepIn run i d e)
    (hun : Unaltered r.tree t.flow) (hd : ∀ x ∈ d.edgeDefs, D x)
    (inner : SubRun here.head) : ∀ x ∈ inner.result.env.edgeDefs, D x ∨ ∃ m,
      Anchored set (here.key, inner.yml) (t.namespaces ++ [nameOf set t.flow i]) m x.1 x.2 := by
  have hinner := (here.inner_faithful hun inner).anchored hd
  rw [subTask, here.site_nameOf] at hinner
  exact hinner

theorem StepIn.keeps_names {sub : Compiler} {run : OnceRun sub set t r} (here : StepIn run i d e)
    (hun : Unaltered r.tree t.flow)
    (hinner : ∀ inner : SubRun here.head, ∀ ns m name site, Anchored set (here.key,
      inner.yml) ns m name site → has inner.result.env.edgeDefs name)
    (hd : ∀ name, has t.edgeDefs name ∨ (∃ ns site, Anchored set t.flow ns i name site) →
      has d.edgeDefs name)
    (h : has t.edgeDefs name ∨ ∃ ns site, Anchored set t.flow ns (i + 1) name site) :
    has e.edgeDefs name := by
  rw [here.head.last_defs]
  rcases h with h | ⟨ns, site, h⟩
  · exact here.head.named_has (hd name (.inl h))
  · cases h with
    | @own _ _ _ j _ out hj hlt h =>
      rcases Nat.lt_succ_iff_lt_or_eq.mp hj with hj | rfl
      · exact here.head.named_has (hd name (.inr ⟨ns, _, .own hj hlt h⟩))
      · rw [here.head.named_defs, here.brought_step hun, has_enterAnchors]
        exact .inr ⟨_, h, rfl⟩
    | @inner _ v _ _ j m _ _ hj hv h =>
      rcases Nat.lt_succ_iff_lt_or_eq.mp hj with hj | rfl
      · exact here.head.named_has (hd name (.inr ⟨ns, site, .inner hj hv h⟩))
      · obtain ⟨inner, rfl, -⟩ := here.exists_inner hv
        rw [here.head.named_defs, has_enterAnchors, (Draft.Alongside.of_core inner.brought).defs]
        exact .inl (has_update.mpr (.inr (hinner inner _ m name site h)))

theorem Faithful.keeps_names (h : Faithful set n t r)
    (hname : has t.edgeDefs name ∨ ∃ ns m site, Anchored set t.flow ns m name site) :
    has r.env.edgeDefs name := by
  induction h using Faithful.induction generalizing name with
  | @step _ t r hr run ih =>
    obtain ⟨concl⟩ := run.concluded
    rw [concl.defs]
    have hlast := run.keeps_steps (P := fun j d => ∀ name, has t.edgeDefs name ∨
        (∃ ns site, Anchored set t.flow ns j name site) → has d.edgeDefs name)
      (fun j d e here hd name => here.keeps_names hr.kept (fun inner ns m name site h => ?_) hd)
      fun name hname => ?_
    · refine hlast name (hname.imp_right fun ⟨ns, m, site, h⟩ => ⟨ns, site, ?_⟩)
      cases h with
      | own hi hlt h => exact .own (by rw [← run.keysIn_eq]; exact hlt) hlt h
      | inner hi hv h => exact .inner (run.lt_of_innerAt hv) hv h
    · exact ih (here.inner_faithful hr.kept inner) (.inr ⟨ns, m, site, h⟩)
    · rcases hname with h | ⟨ns, site, h⟩
      · exact h
      · cases h <;> omega

end Nested

open Entries Result Namespaces
open Yaml (aliasKey inlineKey)

/-- A name that is given to an output before the step at a place of the workflow at a path: by the
earlier steps of that workflow or of one around it, or inside the step. -/
inductive NamedBefore (set : Setting) : String × Doc → List Nat → Nat → String → Prop
  | earlier {w : String × Doc} {ns : Namespaces} {i : Nat} {name : String} {site : EdgeSite}
      (h : Anchored set w ns i name site) : NamedBefore set w [] i name
  | inside {w v : String × Doc} {ns : Namespaces} {i m : Nat} {name : String} {site : EdgeSite}
      (hv : innerAt w.2 i = some v) (h : Anchored set v ns m name site) :
      NamedBefore set w [] i name
  | around {w : String × Doc} {ns : Namespaces} {j i : Nat} {is : List Nat} {name : String}
      {site : EdgeSite} (h : Anchored set w ns j name site) : NamedBefore set w (j :: is) i name
  | deeper {w v : String × Doc} {j i : Nat} {is : List Nat} {name : String}
      (hv : innerAt w.2 j = some v) (h : NamedBefore set v is i name) :
      NamedBefore set w (j :: is) i name

section Step

variable {c : Scope} {s : Site} {d e : Draft} {arg : String}

theorem provide_refer (h : (provide c s d (.str arg)).Yields e)
    (hv : get? (bindings (d.step s.index)) arg = some v) (henc : encoded arg v = .ok v)
    (haux : isAuxiliary arg = false) (hx : under? v aliasKey = some x) :
    ∃ sig, refer c s arg sig x d = .ok e := by
  obtain ⟨_, val, val', hk, hval, henc', h⟩ := provide_yields h
  cases hk
  rw [hv] at hval
  cases hval
  rw [henc] at henc'
  cases henc'
  unfold provideArg at h
  rw [if_neg (by simp [haux])] at h
  obtain ⟨sig, -, h⟩ := h.of_bind
  rw [hx] at h
  exact ⟨sig, by simpa using h⟩

/-- A reference is to a name that an output has, which is not one of the step itself unless the
input lies inside; without a definition it is left open, which the root workflow rejects. -/
theorem refer_cases (hin : d.HasIn s.index) (h : refer c s arg sig x d = .ok e) :
    (∃ site, d.edgeDefs.lookup x.text = some site ∧
      (site.path = c.path s → (splitLast arg).1 ≠ [])) ∨
      (c.task.isRoot = false ∨ c.setting.testing) ∧
        get? (bindings (e.step s.index)) arg = some (source (s.inName arg)) ∧
        has e.inputs (s.inName arg) := by
  obtain ⟨name, hname, h⟩ := of_bind h
  have hname : x.text = name := by
    unfold edgeName at hname
    split at hname
    · exact Except.ok.inj hname
    · cases hname
  subst hname
  split at h
  · split at h
    · simp at h
    · rename_i hopen
      obtain ⟨f, hf, h⟩ := of_bind h
      obtain ⟨-, rfl⟩ := Draft.setIn_eq_ok hf
      rw [← pure_eq_ok.mp h]
      refine .inr ⟨?_, ?_, ?_⟩
      · cases hroot : c.task.isRoot <;> simp_all
      · exact Draft.get?_of_bind hin rfl
      · simp [Draft.call, Draft.bind, Draft.setStep, Draft.declare, Entries.has_put]
  · rename_i site hdef
    refine .inl ⟨site, hdef, fun hpath hempty => ?_⟩
    obtain ⟨f, hf, -⟩ := of_bind h
    unfold bindReference at hf
    rw [hpath, hempty, List.append_nil, partition_append] at hf
    split at hf
    · split at hf <;> simp at hf
    · rename_i heq
      cases heq
    · rename_i hnil _
      exact absurd rfl hnil

end Step

/-- The paths of the two ends of a reference part at their longest common start, and the output can
be named from there unless its path leads on to the input. -/
theorem ends_part_lowest (c : Scope) (s : Site) (arg : String) (site : EdgeSite) :
    (∀ p q, (partition p q).1 ++ (partition p q).2 = p ∧ (partition p q).1 <+: q ∧
      (∀ r, r <+: p → r <+: q → r <+: (partition p q).1) ∧ (partition q p).1 = (partition p q).1) ∧
    ((∃ text, sourceText (partition (defPath site) (callPath c s arg)).2 site.slot = .ok text) ↔
      ¬ defPath site <+: callPath c s arg) := by
  constructor
  · intro p q
    obtain ⟨hp, hq, hmost⟩ := partition_heads p q
    obtain ⟨hq', hp', hmost'⟩ := partition_heads q p
    exact ⟨hp, hq, hmost,
      List.Sublist.antisymm (hmost _ hp' ⟨_, hq'⟩).sublist (hmost' _ hq ⟨_, hp⟩).sublist⟩
  · rw [← partition_eq_nil_iff]
    cases (partition (defPath site) (callPath c s arg)).2 <;> simp [sourceText]

/-- An input of a step that is left open: it takes an input of the workflow that is named after it.
-/
def PartTree.LeftOpen (set : Setting) (w : String × Doc) (q : PartTree) (i : Nat) (a : String) :
    Prop :=
  q.bindingAt i a = some (source (nameOf set w i ++ sep ++ a)) ∧
    q.IsInput (.str (nameOf set w i ++ sep ++ a))

def NamedByItself (yml : Doc) (i : Nat) (a name : String) : Prop :=
  (∃ out, (name, out) ∈ anchorsOf (statedStep yml i)) ∧ (splitLast a).1 ≠ []

section Once

variable {set : Setting} {run : OnceRun sub set t r}
  {i : Nat} {d e : Draft} {D : String × EdgeSite → Prop} {a : String}

theorem StepIn.referenced (here : StepIn run i d e) (hun : Unaltered r.tree t.flow)
    (hinner : ∀ inner : SubRun here.head, ∀ x ∈ inner.result.env.edgeDefs, D x ∨
      ∃ m, Anchored set (here.key, inner.yml) (t.namespaces ++ [nameOf set t.flow i]) m x.1 x.2)
    (hd : ∀ x ∈ d.edgeDefs, D x) (hx : referenceAt t.yml i a = some x) :
    (∃ site, D (x.text, site)) ∨
      (∃ v ns m site, innerAt t.yml i = some v ∧ Anchored set v ns m x.text site) ∨
      NamedByItself t.yml i a x.text ∨ (t.isRoot = false ∨ set.testing) ∧
      get? (bindings (e.step i)) a = some (source (nameOf set t.flow i ++ sep ++ a)) ∧
      has e.inputs (nameOf set t.flow i ++ sep ++ a) := by
  obtain ⟨haux, hpath, v, hv, henc, halias⟩ := referenceAt_eq_some hx
  rw [← here.brought_step hun] at hv
  rw [here.keys_getD] at hpath
  obtain ⟨hprov, hnamed⟩ := here.head.named_binding hv hpath
  obtain ⟨take⟩ := here.head.firstTake hprov hnamed
  obtain ⟨sig, hrefer⟩ := provide_refer take.taking take.value henc haux halias
  rw [← here.site_nameOf]
  rcases refer_cases take.stated hrefer with ⟨site, hsite, hself⟩ | ⟨hopen, hbound, hinput⟩
  · have hmem := Keyed.mem_of_lookup hsite
    rw [take.defs, here.head.named_defs, here.brought_step hun] at hmem
    rcases mem_enterAnchors hmem with hmem | ⟨anchor, hanchor, heq⟩
    · rcases here.brought_defs hinner hd _ hmem with h | ⟨u, m, hu, h⟩
      · exact .inl ⟨site, h⟩
      · exact .inr (.inl ⟨u, _, m, site, hu, h⟩)
    · obtain ⟨hname, hsite⟩ := Prod.mk.inj heq
      rw [hname]
      exact .inr (.inr (.inl ⟨⟨_, hanchor⟩, hself (by rw [hsite])⟩))
  · exact .inr (.inr (.inr
      ⟨hopen, take.binding haux _ hbound (source_alias _) (source_inline _), take.inputs _ hinput⟩))

theorem StepAt.leftOpen {P : Nat → Draft → Prop} (place : StepAt run P i)
    (hbound : get? (bindings (place.after.step i)) a =
      some (source (nameOf set t.flow i ++ sep ++ a)))
    (hinput : has place.after.inputs (nameOf set t.flow i ++ sep ++ a)) :
    r.tree.LeftOpen set t.flow i a := by
  refine ⟨?_, run.isInput (.inr ⟨_, rfl, place.later.inputs _ hinput⟩)⟩
  rw [run.bindingAt_eq place.lt_length, place.later.steps i (Nat.le_refl i), hbound]

end Once

section Nested

variable {set : Setting} {n : Nat} {t : Task} {r : Compiled} {D : String × EdgeSite → Prop}

theorem OnceRun.anchoredAt (run : OnceRun (compileAt set n) set t r) (hun : Unaltered r.tree t.flow)
    (ht : ∀ x ∈ t.edgeDefs, D x) (hi : i < run.start.keys.length) :
    ∃ place : StepAt run (fun j d =>
      ∀ x ∈ d.edgeDefs, D x ∨ Anchored set t.flow t.namespaces j x.1 x.2) i,
      ∀ inner : SubRun place.here.head, ∀ x ∈ inner.result.env.edgeDefs,
        (D x ∨ Anchored set t.flow t.namespaces i x.1 x.2) ∨ ∃ m,
          Anchored set (place.here.key, inner.yml) (t.namespaces ++ [nameOf set t.flow i]) m
          x.1 x.2 := by
  obtain ⟨place⟩ := run.stepAt (P := fun j d =>
    ∀ x ∈ d.edgeDefs, D x ∨ Anchored set t.flow t.namespaces j x.1 x.2) (fun j d e here hd =>
    here.anchored hun (here.inner_anchored hun hd) hd) (fun x hx => .inl (ht x hx)) hi
  exact ⟨place, place.here.inner_anchored hun place.holds⟩

theorem Faithful.referenced (h : Faithful set n t r) (ht : ∀ x ∈ t.edgeDefs, D x) :
    ∀ is w, subAt t.flow is = some w → ∃ q, r.tree.at? is = some q ∧
      ∀ i < (keysIn w.2).length, ∀ a x,
      referenceAt w.2 i a = some x → (∃ site, D (x.text, site)) ∨
        NamedBefore set t.flow is i x.text ∨
        NamedByItself w.2 i a x.text ∨
        (is ≠ [] ∨ t.isRoot = false ∨ set.testing) ∧ q.LeftOpen set w i a := by
  induction h using Faithful.induction generalizing D with
  | @step _ _ r hr run ih =>
    rintro (_ | ⟨j, is⟩) w hw
    · cases hw
      refine ⟨r.tree, rfl, fun i hi a x hx => ?_⟩
      obtain ⟨place, hinner⟩ := run.anchoredAt hr.kept ht (by rw [← run.keysIn_eq]; exact hi)
      rcases place.here.referenced hr.kept hinner place.holds hx with ⟨site, h | h⟩ |
        ⟨v, ns, m, site, hv, h⟩ | h | ⟨hopen, hbound, hinput⟩
      · exact .inl ⟨site, h⟩
      · exact .inr (.inl (.earlier h))
      · exact .inr (.inl (.inside hv h))
      · exact .inr (.inr (.inl h))
      · exact .inr (.inr (.inr ⟨.inr hopen, place.leftOpen hbound hinput⟩))
    · obtain ⟨v, hv, hw⟩ := Option.bind_eq_some_iff.mp hw
      obtain ⟨place, -⟩ := run.anchoredAt hr.kept ht (run.lt_of_innerAt hv)
      obtain ⟨inner, rfl, hsubs⟩ := place.here.exists_inner hv
      rw [PartTree.at?, hsubs, Option.bind_some]
      obtain ⟨q, hq, hall⟩ := ih (place.here.inner_faithful hr.kept inner) place.holds is w hw
      refine ⟨q, hq, fun i hi a x hx => ?_⟩
      rcases hall i hi a x hx with ⟨site, h | h⟩ | h | h | ⟨-, h⟩
      · exact .inl ⟨site, h⟩
      · exact .inr (.inl (.around h))
      · exact .inr (.inl (.deeper hv h))
      · exact .inr (.inr (.inl h))
      · exact .inr (.inr (.inr ⟨.inl (List.cons_ne_nil _ _), h⟩))

end Nested

/-- Unless references may stay without definition, each reference in a step of the root workflow is
to a name that was given before. Inside a workflow among the steps a reference without definition is
left open. -/
theorem compile_referenced {set : Setting} {path : String} {yml : Doc} {graph : Graph}
    {r : Compiled} (htest : set.testing = false) (h : (compile set (.root path yml graph)).Yields r)
    (hun : Unaltered r.tree (path, yml)) :
    ∀ is w, subAt (path, yml) is = some w → ∃ q, r.tree.at? is = some q ∧
      ∀ i < (keysIn w.2).length, ∀ a x,
      referenceAt w.2 i a = some x → NamedBefore set (path, yml) is i x.text ∨
        NamedByItself w.2 i a x.text ∨
        is ≠ [] ∧ q.LeftOpen set w i a := by
  obtain ⟨s, hs, rfl⟩ := h.of_map
  intro is w hw
  obtain ⟨q, hq, hall⟩ :=
    Faithful.referenced (D := fun _ => False) ⟨hs, hun⟩ (fun x hx => by cases hx) is w hw
  refine ⟨q, hq, fun i hi a x hx => ?_⟩
  rcases hall i hi a x hx with ⟨-, h⟩ | h | h | ⟨hopen, h⟩
  · exact h.elim
  · exact .inl h
  · exact .inr (.inl h)
  · refine .inr (.inr ⟨hopen.resolve_right ?_, h⟩)
    rintro (hroot | htrue)
    · cases hroot
    · rw [htest] at htrue
      cases htrue

namespace Sample

def strict (tools : Registry) : Setting := { setting tools with testing := false }

theorem exists_reference (w : String × Doc) (is : List Nat) (i : Nat) (a x : String)
    (h : (subAt w is).any
      (fun v => decide (i < (keysIn v.2).length) && referenceAt v.2 i a == some (.str x)) = true) :
    ∃ v, subAt w is = some v ∧ i < (keysIn v.2).length ∧ referenceAt v.2 i a = some (.str x) := by
  obtain ⟨v, hv, hsaid⟩ := Option.any_eq_true _ _ |>.mp h
  obtain ⟨hlt, hsaid⟩ := Bool.and_eq_true_iff.mp hsaid
  refine ⟨v, hv, of_decide_eq_true hlt, ?_⟩
  cases hx : referenceAt v.2 i a with
  | none => simp [hx] at hsaid
  | some x => simpa [hx] using hsaid

end Sample

open Sample in
theorem compile_referenced_referring :
    ∃ r, (compile (strict [echoTool, catTool])
        (.root "wf.wic" referring (Graph.empty "" ""))).Yields r ∧
      ∃ w, subAt ("wf.wic", referring) [1] = some w ∧ referenceAt w.2 0 "f" = some (.str "a") ∧
      ∃ q, r.tree.at? [1] = some q ∧
      (NamedBefore (strict [echoTool, catTool]) ("wf.wic", referring) [1] 0 "a" ∨
        NamedByItself w.2 0 "f" "a" ∨
        [1] ≠ [] ∧ q.LeftOpen (strict [echoTool, catTool]) w 0 "f") := by
  have hsome : (compiled (strict [echoTool, catTool]) "wf.wic" referring).isSome = true := by
    decide +kernel
  obtain ⟨r, hr⟩ := Logged.yields_of_isSome hsome
  obtain ⟨w, hw, hlt, href⟩ :=
    exists_reference ("wf.wic", referring) [1] 0 "f" "a" (by decide +kernel)
  refine ⟨r, hr, w, hw, href, ?_⟩
  obtain ⟨q, hq, hall⟩ := compile_referenced rfl hr (compile_unaltered rfl hr) [1] w hw
  exact ⟨q, hq, hall 0 hlt "f" _ href⟩

end WorkflowInference.Compile
