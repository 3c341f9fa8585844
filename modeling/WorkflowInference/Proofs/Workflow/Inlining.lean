import WorkflowInference.Proofs.Splitting
import WorkflowInference.Proofs.Workflow.Overriding
import WorkflowInference.Workflow.Inlining

/-!
Inlining one workflow after the other. The steps of a workflow and of the workflows inside are read
in order, each step before those of the workflow that it runs; inlining a workflow takes the key of
its step out of this reading and leaves the rest as it stands. There are only so many keys to take
out, so inlining comes to an end, with the tool steps in the order they had.
-/
namespace WorkflowInference

open Entries Result Logged List

variable {v yml x sub : Doc} {xs : List Doc} {s : Doc × String} {n : Nat} {ks : List String}
  {path : Namespaces}

theorem forall₂_of_map_eq {α β γ : Type} {R : α → β → Prop} {f : α → γ}
    (hR : ∀ a a' b, f a' = f a → R a b → R a' b) {as as' : List α} {bs : List β}
    (hsame : as'.map f = as.map f) (h : List.Forall₂ R as bs) : List.Forall₂ R as' bs := by
  rw [← forall₂_eq_eq_eq, forall₂_map_left_iff, forall₂_map_right_iff] at hsame
  exact forall₂_trans (fun a' a b => hR a a' b) hsame h

namespace Doc

theorem one_le_size (d : Doc) : 1 ≤ d.size := by
  cases d <;> simp [size]

theorem size_value_le (h : (k, v) ∈ es) : k.size + v.size ≤ sizeEntries es := by
  induction es with
  | nil => cases h
  | cons e es ih =>
    rw [sizeEntries]
    rcases mem_cons.mp h with rfl | h
    · exact Nat.le_add_right _ _
    · exact Nat.le_trans (ih h) (Nat.le_add_left _ _)

theorem size_under? (h : Compile.under? d k = some v) : v.size + 2 ≤ d.size := by
  obtain ⟨es, rfl, hmem⟩ := Compile.mem_of_under? h
  have hle := size_value_le hmem
  have hkey := one_le_size (.str k)
  rw [size]
  omega

end Doc

namespace Workflow

open Compile (under? field_eq_ok fieldD_eq_ok entries_eq_ok)

variable {t t' : Tree}

/-! The steps of a workflow. -/

def stepDocs (yml : Doc) : Result (List Doc) := do (← yml.field "steps").members

variable {ps : List (Doc × String)} {wic tag notes : Doc}

theorem steps_iff : Tree.steps yml = .ok ps ↔
    stepDocs yml = .ok (ps.map (·.1)) ∧ ∀ s ∈ ps, stepKey s.1 = .str s.2 := by
  constructor
  · intro h
    obtain ⟨d, hd, xs, hxs, h⟩ := of_bind₂ h
    obtain ⟨-, -, names, hnames, h⟩ := of_bind₂ h
    have hkeys := Compile.names_eq_ok hnames
    have hlen : xs.length = names.length := by simpa [stepKeys] using congrArg length hkeys
    rw [← pure_eq_ok.mp h]
    refine ⟨?_, fun s hs => ?_⟩
    · rw [map_fst_zip (Nat.le_of_eq hlen)]
      exact bind_eq_ok.mpr ⟨d, hd, hxs⟩
    · obtain ⟨i, hi⟩ := getElem?_of_mem hs
      obtain ⟨hx, hname⟩ := getElem?_zip_eq_some.mp hi
      have hat := congrArg (·[i]?) hkeys
      simpa [stepKeys, hx, hname] using hat
  · rintro ⟨hdocs, hkeys⟩
    obtain ⟨d, hd, hxs⟩ := of_bind hdocs
    have hnames : stepKeys (ps.map (·.1)) = (ps.map (·.2)).map .str := by
      rw [stepKeys, map_map, map_map]
      exact map_congr_left hkeys
    obtain ⟨ks, hks⟩ := subKeys_str (ps.map (·.2))
    have hmap : ((ps.map (·.2)).map Doc.str).mapM (fun k =>
        k.str?.elim (Except.error Failure.wrongKind) Except.ok) =
        (.ok (ps.map (·.2)) : Result (List String)) := by
      refine mapM_of_forall₂ ?_
      rw [forall₂_map_left_iff, forall₂_same]
      exact fun _ _ => rfl
    refine bind_eq_ok.mpr ⟨d, hd, bind_eq_ok.mpr ⟨_, hxs, ?_⟩⟩
    rw [hnames]
    refine bind_eq_ok.mpr ⟨ks, hks, bind_eq_ok.mpr ⟨_, hmap, ?_⟩⟩
    rw [zip_map']
    simp

def subSize (step : Doc) : Nat := (under? step "subtree").elim 0 (·.size + 1)

def subSizes : List Doc → Nat
  | [] => 0
  | x :: xs => subSize x + subSizes xs

theorem subSize_le (step : Doc) : subSize step ≤ step.size := by
  unfold subSize
  cases hsub : under? step "subtree" with
  | none => exact Nat.zero_le _
  | some sub =>
    have hle := Doc.size_under? hsub
    change sub.size + 1 ≤ step.size
    omega

theorem subSize_le_subSizes (h : x ∈ xs) : subSize x ≤ subSizes xs := by
  induction xs with
  | nil => cases h
  | cons y ys ih =>
    rw [subSizes]
    rcases mem_cons.mp h with rfl | h
    · exact Nat.le_add_right _ _
    · exact Nat.le_trans (ih h) (Nat.le_add_left _ _)

theorem subSizes_le_size {d : Doc} (h : d.members = .ok xs) : subSizes xs ≤ d.size := by
  have hitems : ∀ ys : List Doc, subSizes ys ≤ Doc.sizeItems ys := by
    intro ys
    induction ys with
    | nil => exact Nat.le_refl _
    | cons y ys ih => exact Nat.add_le_add (subSize_le y) ih
  have hkeys : ∀ es : Entries, subSizes (es.map (·.1)) ≤ Doc.sizeEntries es := by
    intro es
    induction es with
    | nil => exact Nat.le_refl _
    | cons e es ih => exact Nat.add_le_add (Nat.le_trans (subSize_le e.1) (Nat.le_add_right _ _)) ih
  -- the characters of a text are no maps, and run nothing
  have hchars : ∀ cs : List Char, subSizes (cs.map fun c => .str (String.singleton c)) = 0 := by
    intro cs
    induction cs with
    | nil => rfl
    | cons c cs ih =>
      rw [map_cons, subSizes, ih]
      rfl
  cases d with
  | list ys | tuple ys | set ys =>
    cases h
    rw [Doc.size]
    exact Nat.le_succ_of_le (hitems xs)
  | map es =>
    cases h
    rw [Doc.size]
    exact Nat.le_succ_of_le (hkeys es)
  | str s =>
    cases h
    rw [hchars]
    exact Nat.zero_le _
  | _ => cases h

theorem subSizes_lt (h : stepDocs yml = .ok xs) : subSizes xs < yml.size := by
  obtain ⟨d, hd, hxs⟩ := of_bind h
  have hlt : d.size + 2 ≤ yml.size := Doc.size_under? (field_eq_ok.mp hd)
  have hle := subSizes_le_size hxs
  omega

theorem size_subtree (h : Tree.steps yml = .ok ps) (hs : s ∈ ps)
    (hsub : under? s.1 "subtree" = some sub) : sub.size < yml.size := by
  have hsum := subSizes_lt (steps_iff.mp h).1
  have hle := subSize_le_subSizes (mem_map_of_mem (f := (·.1)) hs)
  rw [subSize, hsub] at hle
  change sub.size + 1 ≤ _ at hle
  omega

/-! Reading all steps in order. -/

def keysAt (below : Doc → Result (List String)) (s : Doc × String) : Result (List String) := do
  if isSubKey s.2 then return s.2 :: (← below (← s.1.field "subtree")) else return [s.2]

def keysIn : Nat → Doc → Result (List String)
  | 0, _ => .error .tooDeep
  | n + 1, yml => do return (← (← Tree.steps yml).mapM (keysAt (keysIn n))).flatten

def keys (yml : Doc) : Result (List String) := keysIn yml.size yml

def leafKeys (yml : Doc) : Result (List String) := do return (← keys yml).filter (!isSubKey ·)

def subCount (yml : Doc) : Result Nat := do return (← keys yml).countP isSubKey

theorem keysAt_congr {f g : Doc → Result (List String)}
    (h : ∀ sub, under? s.1 "subtree" = some sub → f sub = g sub) : keysAt f s = keysAt g s := by
  unfold keysAt
  cases hsub : s.1.field "subtree" with
  | error e => rfl
  | ok sub =>
    simp only [bind, Except.bind]
    rw [h sub (field_eq_ok.mp hsub)]

theorem keysIn_congr (hn : yml.size ≤ n) (hm : yml.size ≤ m) : keysIn n yml = keysIn m yml := by
  induction n generalizing yml m with
  | zero => exact absurd (Nat.le_trans yml.one_le_size hn) (by decide)
  | succ n ih =>
    obtain ⟨m, rfl⟩ := Nat.exists_eq_add_one.mpr (Nat.lt_of_lt_of_le yml.one_le_size hm)
    rw [keysIn, keysIn]
    cases hps : Tree.steps yml with
    | error e => rfl
    | ok ps =>
      have heach : ∀ s ∈ ps, keysAt (keysIn n) s = keysAt (keysIn m) s := by
        intro s hs
        refine keysAt_congr fun sub hsub => ?_
        have hlt := size_subtree hps hs hsub
        exact ih (by omega) (by omega)
      simp only [bind, Except.bind]
      rw [mapM_congr heach]

theorem keys_eq_ok : keys yml = .ok ks ↔ ∃ ps kss, Tree.steps yml = .ok ps ∧
    List.Forall₂ (fun s ks => keysAt keys s = .ok ks) ps kss ∧ ks = kss.flatten := by
  obtain ⟨n, hn⟩ := Nat.exists_eq_add_one.mpr yml.one_le_size
  have heach : ∀ ps, Tree.steps yml = .ok ps → ∀ s ∈ ps, keysAt (keysIn n) s = keysAt keys s := by
    intro ps hps s hs
    refine keysAt_congr fun sub hsub => ?_
    have hlt := size_subtree hps hs hsub
    exact keysIn_congr (by omega) (Nat.le_refl _)
  rw [keys, hn, keysIn]
  constructor
  · intro h
    obtain ⟨ps, hps, kss, hkss, h⟩ := of_bind₂ h
    rw [mapM_congr (heach ps hps)] at hkss
    exact ⟨ps, kss, hps, mapM_eq_ok hkss, (pure_eq_ok.mp h).symm⟩
  · rintro ⟨ps, kss, hps, hkss, rfl⟩
    refine bind_eq_ok.mpr ⟨ps, hps, bind_eq_ok.mpr ⟨kss, ?_, rfl⟩⟩
    rw [mapM_congr (heach ps hps)]
    exact mapM_of_forall₂ hkss

theorem keysAt_sub {below : Doc → Result (List String)} (hkey : isSubKey s.2)
    (hsub : under? s.1 "subtree" = some sub) :
    keysAt below s = .ok ks ↔ ∃ inner, below sub = .ok inner ∧ ks = s.2 :: inner := by
  rw [keysAt, if_pos hkey, field_eq_ok.mpr hsub]
  constructor
  · intro h
    obtain ⟨_, hfield, h⟩ := of_bind h
    cases hfield
    obtain ⟨inner, hinner, h⟩ := of_bind h
    exact ⟨inner, hinner, (pure_eq_ok.mp h).symm⟩
  · rintro ⟨inner, hinner, rfl⟩
    exact bind_eq_ok.mpr ⟨sub, rfl, bind_eq_ok.mpr ⟨inner, hinner, rfl⟩⟩

theorem countP_keys_le (h : keys yml = .ok ks) : ks.countP isSubKey ≤ yml.size := by
  induction hn : yml.size using Nat.strong_induction_on generalizing yml ks with
  | _ n ih =>
    subst hn
    obtain ⟨ps, kss, hps, heach, rfl⟩ := keys_eq_ok.mp h
    have hat : ∀ s ∈ ps, ∀ ks, keysAt keys s = .ok ks → ks.countP isSubKey ≤ subSize s.1 := by
      intro s hs ks hks
      cases hkey : isSubKey s.2 with
      | false =>
        rw [keysAt, hkey] at hks
        cases hks
        simp [hkey]
      | true =>
        cases hsub : under? s.1 "subtree" with
        | none =>
          rw [keysAt, if_pos hkey] at hks
          obtain ⟨sub, hfield, -⟩ := of_bind hks
          rw [field_eq_ok, hsub] at hfield
          cases hfield
        | some sub =>
          obtain ⟨inner, hinner, rfl⟩ := (keysAt_sub hkey hsub).mp hks
          rw [countP_cons_of_pos hkey, subSize, hsub]
          exact Nat.succ_le_succ (ih _ (size_subtree hps hs hsub) hinner rfl)
    have hsum : kss.flatten.countP isSubKey ≤ subSizes (ps.map (·.1)) := by
      clear hps ih h
      induction heach with
      | nil => exact Nat.le_refl _
      | @cons s ks ps kss hs _ ih =>
        rw [flatten_cons, countP_append, map_cons, subSizes]
        exact Nat.add_le_add (hat s mem_cons_self ks hs) (ih fun s hs =>
          hat s (mem_cons_of_mem _ hs))
    have hlt := subSizes_lt (steps_iff.mp hps).1
    omega

/-! Workflows without implementations. -/

inductive Unimplemented : Doc → Prop
  | intro {yml : Doc}
      (own : ∀ wic impls, yml.fieldD "wic" (.map []) = .ok wic →
        Tree.implementations? wic = .ok impls → impls = none)
      (inner : ∀ ps s sub, Tree.steps yml = .ok ps → s ∈ ps → isSubKey s.2 →
        under? s.1 "subtree" = some sub → Unimplemented sub) : Unimplemented yml

theorem Unimplemented.own (h : Unimplemented yml) (hwic : yml.fieldD "wic" (.map []) = .ok wic)
    (himpls : Tree.implementations? wic = .ok impls) : impls = none := by
  obtain ⟨own, -⟩ := h
  exact own wic impls hwic himpls

theorem Unimplemented.inner (h : Unimplemented yml) (hps : Tree.steps yml = .ok ps)
    (hs : s ∈ ps) (hkey : isSubKey s.2) (hsub : under? s.1 "subtree" = some sub) :
    Unimplemented sub := by
  obtain ⟨-, inner⟩ := h
  exact inner ps s sub hps hs hkey hsub

def lacksImpls : Nat → Doc → Bool
  | 0, _ => false
  | n + 1, yml =>
    ((do Tree.implementations? (← yml.fieldD "wic" (.map []))).toOption.join.isNone) &&
      ((Tree.steps yml).toOption.getD []).all fun s =>
      !isSubKey s.2 || (under? s.1 "subtree").all (lacksImpls n)

theorem Unimplemented.of_lacksImpls (h : lacksImpls n yml) : Unimplemented yml := by
  induction n generalizing yml with
  | zero => cases h
  | succ n ih =>
    simp only [lacksImpls, Bool.and_eq_true, all_eq_true] at h
    refine ⟨fun wic impls hwic himpls => ?_, fun ps s sub hps hs hkey hsub => ?_⟩
    · have hown := h.1
      rw [bind_eq_ok.mpr ⟨wic, hwic, himpls⟩] at hown
      exact Option.isNone_iff_eq_none.mp hown
    · have hin := h.2 s (by rw [hps]; exact hs)
      rw [hkey, hsub] at hin
      exact ih (by simpa using hin)

inductive LeadsIn : Tree → Namespaces → Prop
  | here (t : Tree) : LeadsIn t []
  | step {t : Tree} {steps : List (Doc × String)} {i : Nat} {x sub : Doc} {key : String}
      {path : Namespaces} (hsteps : Tree.steps t.yml = .ok steps) (hi : steps[i]? = some (x, key))
      (hkey : isSubKey key) (hsub : x.field "subtree" = .ok sub)
      (rest : LeadsIn ⟨⟨key, t.id.space⟩, sub⟩ path) :
      LeadsIn t (stepName (Path.stem t.id.stem) i key :: path)

/-- Where the paths are found, all keys can be read, and each path leads to a workflow inside. -/
theorem inlineableIn_leads (hun : Unimplemented t.yml)
    (h : inlineableIn n t isImpl pre = .ok paths) :
    (∃ ks, keys t.yml = .ok ks) ∧ ∀ p ∈ paths, p ≠ [] ∧ ∃ rest, p = pre ++ rest ∧
      LeadsIn t rest := by
  induction n generalizing t isImpl pre paths with
  | zero => cases h
  | succ n ih =>
    obtain ⟨wic, hwic, impls, himpls, h⟩ := of_bind₂ h
    cases hun.own hwic himpls
    obtain ⟨steps, hsteps, allowed, -, each, heach, h⟩ := of_bind₃ h
    obtain ⟨hlen, hall⟩ := getElem?_mapIdxM heach
    have hat : ∀ (i : Nat) s, steps[i]? = some s → ∃ qs, each[i]? = some qs ∧
        (∃ ks, keysAt keys s = .ok ks) ∧
        ∀ p ∈ qs, p ≠ [] ∧ ∃ rest, p = pre ++ rest ∧ LeadsIn t rest := by
      intro i s hs
      obtain ⟨qs, hqs, hone⟩ := hall i s hs
      refine ⟨qs, hqs, ?_⟩
      dsimp only at hone
      split at hone
      · rename_i hkey
        obtain ⟨sub, hsub, hone⟩ := of_bind hone
        have hinner := hun.inner hsteps (mem_of_getElem? hs) hkey (field_eq_ok.mp hsub)
        obtain ⟨⟨inner, hread⟩, hleads⟩ := ih (t := ⟨⟨s.2, t.id.space⟩, sub⟩) hinner hone
        refine ⟨⟨_, (keysAt_sub hkey (field_eq_ok.mp hsub)).mpr ⟨inner, hread, rfl⟩⟩,
          fun p hp => ?_⟩
        obtain ⟨hne, rest, rfl, hrest⟩ := hleads p hp
        exact ⟨hne, _, by rw [append_assoc, singleton_append], .step hsteps hs hkey hsub hrest⟩
      · rename_i hkey
        cases hone
        exact ⟨⟨[s.2], by rw [keysAt, if_neg hkey]; rfl⟩, by simp⟩
    constructor
    · have hread : ∀ s ∈ steps, ∃ ks, keysAt keys s = .ok ks := by
        intro s hs
        obtain ⟨i, hi⟩ := getElem?_of_mem hs
        obtain ⟨_, -, hks, -⟩ := hat i s hi
        exact hks
      choose! f hf using hread
      refine ⟨_, keys_eq_ok.mpr ⟨steps, steps.map f, hsteps, ?_, rfl⟩⟩
      rw [forall₂_map_right_iff, forall₂_same]
      exact hf
    · intro p hp
      rw [← pure_eq_ok.mp h] at hp
      rcases mem_append.mp hp with hp | hp
      · split at hp
        · rename_i hcond
          rw [mem_singleton.mp hp]
          refine ⟨?_, [], (append_nil _).symm, .here t⟩
          rintro rfl
          simp at hcond
        · cases hp
      · obtain ⟨qs, hqs, hp⟩ := mem_flatten.mp hp
        obtain ⟨i, hi⟩ := getElem?_of_mem hqs
        have hlt := (List.getElem?_eq_some_iff.mp hi).1
        obtain ⟨_, hqs', -, hleads⟩ := hat i _ (List.getElem?_eq_getElem (hlen ▸ hlt))
        cases hi.symm.trans hqs'
        exact hleads p hp

/-! One inlining. -/

/-- What inlining at a step does: the steps of the workflow take the place of the step, or the step
keeps its place and runs the workflow in which one was inlined. The last number counts the steps
that were moved up. -/
inductive Inlined (n : Nat) (t : Tree) (i : Nat) (key : String) (wic sub args : Doc) :
    Namespaces → List Doc → Doc → Nat → Prop
  | here {sub' lifted wic' : Doc} {ys : List Doc} (given : (applyArgs sub args).Yields sub')
      (steps : stepDocs sub' = .ok ys) (lift : liftNotes wic i key sub' = .ok lifted)
      (notes : inlineNotes (Doc.obj [("wic", lifted)])
        [stepName (Path.stem t.id.stem) i key] ys.length = .ok wic') :
      Inlined n t i key wic sub args [] ys wic' ys.length
  | inside {r : Tree} {count : Nat} {m : String} {path : Namespaces} {wic' : Doc}
      (inner : (inlineIn n ⟨⟨key, t.id.space⟩, sub⟩ (m :: path)).Yields (r, count))
      (notes : inlineNotes (Doc.obj [("wic", wic)])
        (stepName (Path.stem t.id.stem) i key :: m :: path) count = .ok wic') :
      Inlined n t i key wic sub args (m :: path)
        [Doc.obj [("id", .str key), ("subtree", r.yml), ("parentargs", args)]] wic' count

def spliced (es : Entries) (docs : List Doc) (i : Nat) (ys : List Doc) (wic : Doc) : Doc :=
  .map (put (put es "steps" (.list (docs.take i ++ ys ++ docs.drop (i + 1)))) "wic" wic)

theorem inlineIn_cases {i count : Nat} {key : String} {steps : List (Doc × String)}
    (hown : ∀ wic impls, t.wic = .ok wic → Tree.implementations? wic = .ok impls → impls = none)
    (hsteps : Tree.steps t.yml = .ok steps) (hi : steps[i]? = some (x, key))
    (hsub : x.field "subtree" = .ok sub)
    (h : (inlineIn (n + 1) t (stepName (Path.stem t.id.stem) i key :: path)).Yields (t', count)) :
    ∃ es wic args ys wic', t.yml = .map es ∧ t.wic = .ok wic ∧ under? x "parentargs" = some args ∧
      t' = ⟨t.id, spliced es (steps.map (·.1)) i ys wic'⟩ ∧
      Inlined n t i key wic sub args path ys wic' count := by
  obtain ⟨wic, hwic, impls, himpls, h⟩ := h.of_bind₂
  rw [yields_lift] at hwic himpls
  cases hown wic impls hwic himpls
  obtain ⟨_, hsteps', h⟩ := h.of_lift
  rw [hsteps] at hsteps'
  cases hsteps'
  dsimp only at h
  split at h
  · obtain ⟨⟨⟩, hthrow, -⟩ := h.of_bind
    exact absurd hthrow yields_throw
  obtain ⟨place, hread, h⟩ := h.of_lift
  obtain ⟨hindex, hplace⟩ := StepName.read_place hread
  have hnat : place.index.toNat = i := by rw [hindex, Int.toNat_natCast]
  obtain ⟨y, hy, h⟩ := h.of_lift
  rw [elim_eq_ok, hnat, hi] at hy
  cases hy
  obtain ⟨_, hsub', h⟩ := h.of_lift
  rw [hsub] at hsub'
  cases hsub'
  obtain ⟨args, hargs, h⟩ := h.of_lift
  rw [field_eq_ok] at hargs
  rw [hnat, hindex, hplace] at h
  cases path with
  | nil =>
    obtain ⟨sub', hsub', ys, hys, yml, hyml, h⟩ := h.of_bind₃
    obtain ⟨lifted, hlifted, wic', hwic', last, hlast, h⟩ := h.of_bind₃
    rw [yields_lift] at hys hyml hlifted hwic' hlast
    obtain ⟨es, hes, hyml⟩ := of_bind hyml
    cases hyml
    cases hlast
    cases yields_pure.mp h
    exact ⟨es, wic, args, ys, wic', entries_eq_ok.mp hes, hwic, hargs, rfl,
      .here hsub' hys hlifted hwic'⟩
  | cons m path =>
    obtain ⟨⟨r, count⟩, hr, yml, hyml, h⟩ := h.of_bind₂
    obtain ⟨wic', hwic', last, hlast, h⟩ := h.of_bind₂
    rw [yields_lift] at hyml hwic' hlast
    obtain ⟨es, hes, hyml⟩ := of_bind hyml
    cases hyml
    cases hlast
    cases yields_pure.mp h
    have hlt : i < (steps.map (·.1)).length := by
      rw [length_map]
      exact (List.getElem?_eq_some_iff.mp hi).1
    refine ⟨es, wic, args, _, wic', entries_eq_ok.mp hes, hwic, hargs, ?_, .inside hr hwic'⟩
    rw [spliced, append_assoc, singleton_append, set_eq_take_append_cons_drop, if_pos hlt]

/-! Moving annotations does not touch what the annotation of a workflow says besides its steps. -/

def SameButSteps (wic wic' : Doc) : Prop :=
  wic' = wic ∨ ∃ es notes, wic = .map es ∧ wic' = .map (put es "steps" notes)

theorem SameButSteps.implementations? (h : SameButSteps wic wic')
    (hnone : ∀ impls, Tree.implementations? wic = .ok impls → impls = none) :
    ∀ impls, Tree.implementations? wic' = .ok impls → impls = none := by
  rcases h with rfl | ⟨es, notes, rfl, rfl⟩
  · exact hnone
  · intro impls himpls
    refine hnone impls ?_
    simp only [Tree.implementations?, Doc.holds, Doc.field, Entries.has,
      get?_put_ne (show "steps" ≠ "implementations" by decide)]
      at himpls ⊢
    exact himpls

theorem setNotes_eq_ok (h : setNotes tag notes = .ok r) : ∃ es ws, tag = .map es ∧
    get? es "wic" = some (.map ws) ∧ r = .map (put es "wic" (.map (put ws "steps" notes))) := by
  obtain ⟨wic, hwic, es, hes, h⟩ := of_bind₂ h
  obtain ⟨ws, hws, rfl⟩ := of_map h
  rw [entries_eq_ok] at hes hws
  subst hes hws
  exact ⟨es, ws, rfl, field_eq_ok.mp hwic, rfl⟩

theorem notesIn_eq_ok (h : notesIn tag = .ok notes) :
    notes = (Doc.find? ["wic", "steps"] tag).getD (.map []) := by
  obtain ⟨wic, hwic, h⟩ := of_bind h
  rw [fieldD_eq_ok h, fieldD_eq_ok hwic]
  cases hown : under? tag "wic" <;> simp [Doc.find?, hown]

section Notes

variable {tag tag' : Doc} {c i : Int} {name : String} {places : List (Int × String)}

/-- What is written at the end of the path: the annotations of the steps inside, moved behind the
steps before, and those of the other steps, without the one of the step itself. -/
theorem inlineNotesAt_last (h : inlineNotesAt tag c [(i, name)] = .ok tag') :
    ∃ es ws ns ms inner outer r, tag = .map es ∧
      get? es "wic" = some (.map ws) ∧ get? ws "steps" = some (.map ns) ∧
      (Doc.find? ["wic", "steps", placeKey i name, "wic", "steps"] tag).getD (.map []) = .map ms ∧
      reindex ms 1 i = .ok inner ∧ reindex (remove ns (placeKey i name)) (i + 1) (c - 1) =
      .ok outer ∧ Doc.mergeEntries inner outer = .ok r ∧
      tag' = .map (put es "wic" (.map (put ws "steps" (.map r)))) := by
  unfold inlineNotesAt at h
  obtain ⟨notes, hnotes, sub, hsub, below, hbelow, h⟩ := of_bind₃ h
  obtain ⟨ms, hms, inner, hinner, ns, hns, h⟩ := of_bind₃ h
  obtain ⟨own, hown, has, hhas, h⟩ := of_bind₂ h
  dsimp only at h
  split at h
  · cases h
  rename_i hheld
  obtain ⟨outer, houter, all, hall, h⟩ := of_bind₂ h
  obtain ⟨es, ws, rfl, hws, rfl⟩ := setNotes_eq_ok h
  rw [entries_eq_ok] at hms hns
  rw [field_eq_ok, Compile.under?_map, hws] at hown
  cases hown
  have hsteps : get? ws "steps" = some (.map ns) := by
    have hread := notesIn_eq_ok hnotes
    have hheld : Entries.has ws "steps" := by simpa [← Except.ok.inj hhas] using hheld
    obtain ⟨v, hv⟩ := Option.isSome_iff_exists.mp hheld
    simp only [Doc.find?, Compile.under?_map, hws, hv, Option.bind_some, Option.getD_some] at hread
    rw [hv, ← hread, hns]
  have hms' : (Doc.find? ["wic", "steps", placeKey i name, "wic", "steps"] (.map es)).getD
      (.map []) = .map ms := by
    rw [← hms, notesIn_eq_ok hbelow, fieldD_eq_ok hsub, notesIn_eq_ok hnotes, ← Doc.find?_singleton,
      Doc.find?_getD, singleton_append, Doc.find?_getD]
    rfl
  rcases Doc.merge_cases hall with ⟨_, _, r, hinner', houter', hr, rfl⟩ | ⟨rfl, hnil⟩
  · cases hinner'
    cases houter'
    exact ⟨es, ws, ns, ms, inner, outer, r, rfl, hws, hsteps, hms', hinner, houter, hr, rfl⟩
  · cases hnil outer rfl
    exact ⟨es, ws, ns, ms, inner, [], inner, rfl, hws, hsteps, hms', hinner, houter, rfl, rfl⟩

/-- On the way to the end of the path one annotation is replaced, or none when the path is not
spoken of. -/
theorem inlineNotesAt_cons (hne : places ≠ [])
    (h : inlineNotesAt tag c ((i, name) :: places) = .ok tag') :
    tag' = tag ∧ Doc.find? ["wic", "steps", placeKey i name, "wic", "steps"] tag = none ∨
      ∃ es ws ns v v', tag = .map es ∧ get? es "wic" = some (.map ws) ∧
      get? ws "steps" = some (.map ns) ∧ get? ns (placeKey i name) = some v ∧
      inlineNotesAt v c places = .ok v' ∧
      tag' = .map (put es "wic" (.map (put ws "steps" (.map (put ns (placeKey i name) v'))))) := by
  unfold inlineNotesAt at h
  split at h
  · cases h
  · rename_i heq
    cases heq
    exact absurd rfl hne
  rename_i heq
  cases heq
  obtain ⟨notes, hnotes, sub, hsub, h⟩ := of_bind₂ h
  obtain ⟨wic, hwic, has, hhas, h⟩ := of_bind₂ h
  have hread := notesIn_eq_ok hnotes
  have hsub := fieldD_eq_ok hsub
  have hwic := fieldD_eq_ok hwic
  split at h
  · rename_i hheld
    obtain ⟨v', hv', ns, hns, h⟩ := of_bind₂ h
    obtain ⟨es, ws, rfl, hws, rfl⟩ := setNotes_eq_ok h
    rw [entries_eq_ok] at hns
    subst hns
    have hv : get? ns (placeKey i name) = some sub := by
      cases hget : get? ns (placeKey i name) with
      | some v => rw [hsub, Compile.under?_map, hget, Option.getD_some]
      | none =>
        rw [Compile.under?_map, hget, Option.getD_none] at hsub
        rw [hwic, hsub] at hhas
        cases hhas
        cases hheld
    have hsteps : get? ws "steps" = some (.map ns) := by
      simp only [Doc.find?, Compile.under?_map, hws, Option.bind_some] at hread
      cases hget : get? ws "steps" with
      | some v => rw [hread, hget, Option.bind_some, Option.getD_some]
      | none =>
        rw [hget] at hread
        cases hread
        cases hv
    exact .inr ⟨es, ws, ns, sub, v', rfl, hws, hsteps, hv, hv', rfl⟩
  · rename_i hheld
    refine .inl ⟨(pure_eq_ok.mp h).symm, ?_⟩
    have hnone : under? wic "steps" = none := by
      cases wic with
      | map ws =>
        have hfalse : Entries.has ws "steps" = false := by
          rw [Except.ok.inj hhas]; simpa using hheld
        simpa [Entries.has] using hfalse
      | _ => rfl
    rw [hwic, hsub, hread] at hnone
    simpa only [← Doc.find?_singleton, Doc.find?_getD, cons_append, nil_append] using hnone

end Notes

variable {wic lifted : Doc} {i : Int} {key : String}

theorem inlineNotes_same {wic' : Doc} {count : Int}
    (h : inlineNotes (Doc.obj [("wic", wic)]) path count = .ok wic') : SameButSteps wic wic' := by
  obtain ⟨_, -, places, -, tag, htag, h⟩ := of_bind₃ h
  rw [field_eq_ok] at h
  have hput : ∀ es ws notes, Doc.obj [("wic", wic)] = .map es → get? es "wic" = some (.map ws) →
      tag = .map (put es "wic" (.map (put ws "steps" notes))) → SameButSteps wic wic' := by
    rintro _ ws notes ⟨⟩ hws rfl
    cases hws
    rw [Compile.under?_map, get?_put_self] at h
    cases h
    exact .inr ⟨ws, notes, rfl, rfl⟩
  cases places with
  | nil => cases htag
  | cons place places =>
    cases places with
    | nil =>
      obtain ⟨es, ws, _, _, _, _, r, hes, hws, -, -, -, -, -, rfl⟩ := inlineNotesAt_last htag
      exact hput es ws _ hes hws rfl
    | cons place' places =>
      rcases inlineNotesAt_cons (cons_ne_nil _ _) htag with ⟨rfl, -⟩ |
        ⟨es, ws, _, _, _, hes, hws, -, -, -, rfl⟩
      · cases h
        exact .inl rfl
      · exact hput es ws _ hes hws rfl

theorem liftNotes_eq_ok (h : liftNotes wic i key sub = .ok lifted) :
    ∃ ws ns nes merged, wic = .map ws ∧ (under? wic "steps").getD (.map []) = .map ns ∧
      (get? ns (placeKey i key)).getD (.map []) = .map nes ∧
      ((under? sub "wic").getD (.map [])).merge ((get? nes "wic").getD (.map [])) = .ok merged ∧
      lifted = .map
      (put ws "steps" (.map (put ns (placeKey i key) (.map (put nes "wic" merged))))) := by
  obtain ⟨steps, hsteps, note, hnote, outer, houter, h⟩ := of_bind₃ h
  obtain ⟨inner, hinner, merged, hmerged, steps', hsteps', h⟩ := of_bind₃ h
  obtain ⟨ns, hns, nes, hnes, ws, hws, h⟩ := of_bind₃ h
  cases hsteps.symm.trans hsteps'
  rw [entries_eq_ok] at hns hnes hws
  subst hns hnes hws
  rw [fieldD_eq_ok houter, fieldD_eq_ok hinner] at hmerged
  exact ⟨ws, ns, nes, merged, rfl, (fieldD_eq_ok hsteps).symm, (fieldD_eq_ok hnote).symm, hmerged,
    (pure_eq_ok.mp h).symm⟩

theorem liftNotes_same (h : liftNotes wic i key sub = .ok lifted) :
    SameButSteps wic lifted := by
  obtain ⟨ws, ns, nes, merged, rfl, -, -, -, rfl⟩ := liftNotes_eq_ok h
  exact .inr ⟨ws, _, rfl, rfl⟩

def face (step : Doc) : Doc × Option Doc := (stepKey step, under? step "subtree")

theorem face_put (hid : k ≠ "id") (hsub : k ≠ "subtree") :
    face (.map (put es k v)) = face (.map es) :=
  Prod.ext (stepKey_put hid) (get?_put_ne hsub)

theorem applyArgStep_face (h : applyArgStep k v x = .ok y) : face y = face x := by
  obtain ⟨own, -, h⟩ := of_bind h
  split at h
  · obtain ⟨ins, -, ins, -, h⟩ := of_bind₂ h
    obtain ⟨es, hes, rfl⟩ := of_map h
    rw [entries_eq_ok.mp hes]
    exact face_put (by decide) (by decide)
  · obtain ⟨parent, -, inner, -, ins, -, h⟩ := of_bind₃ h
    obtain ⟨ins, -, has, -, h⟩ := of_bind₂ h
    split at h
    · obtain ⟨ps, -, h⟩ := of_bind h
      obtain ⟨es, hes, rfl⟩ := of_map h
      rw [entries_eq_ok.mp hes]
      exact face_put (by decide) (by decide)
    · rw [← pure_eq_ok.mp h]

theorem applyArgs_face (h : (applyArgs sub args).Yields sub') :
    under? sub' "wic" = under? sub "wic" ∧ ∃ xs ys, stepDocs sub = .ok xs ∧ stepDocs sub' = .ok ys ∧
      ys.map face = xs.map face := by
  obtain ⟨inputs, -, yml, hyml, xs, hxs, h⟩ := h.of_bind₃
  obtain ⟨names, -, given, -, ⟨⟩, -, h⟩ := h.of_bind₃
  obtain ⟨gs, -, ys, hys, h⟩ := h.of_bind₂
  rw [yields_lift] at hyml hxs hys h
  obtain ⟨es, hes, rfl⟩ := of_map hyml
  obtain ⟨_, hes', h⟩ := of_bind h
  cases hes'
  rw [← pure_eq_ok.mp h]
  refine ⟨?_, xs, ys, ?_, by simp [stepDocs, Doc.field, bind, Except.bind, Doc.members], ?_⟩
  · rw [entries_eq_ok.mp hes, Compile.under?_map, Compile.under?_map, get?_put_ne (by decide),
      get?_remove_ne (by decide)]
  · rw [entries_eq_ok.mp hes]
    simpa only [stepDocs, Doc.field, get?_remove_ne (show "inputs" ≠ "steps" by decide)] using hxs
  · -- each value that is given goes through all steps
    refine (foldlM_eq_ok hys).keeps (P := fun zs => zs.map face = xs.map face) ?_ rfl
    intro e _ zs zs' hzs hstep
    obtain ⟨known, -, hstep⟩ := of_bind hstep
    dsimp only at hstep
    split at hstep
    · obtain ⟨_, -, hstep⟩ := of_bind hstep
      cases hstep
    · rw [← hzs, ← forall₂_eq_eq_eq, forall₂_map_left_iff, forall₂_map_right_iff]
      exact ((mapM_eq_ok hstep).imp fun _ _ => applyArgStep_face).flip

/-! The keys after an inlining. -/

section Splice

variable {es : Entries} {ps qs : List (Doc × String)} {i : Nat} {wic : Doc}
  (hps : Tree.steps (.map es) = .ok ps) (hqs : ∀ s ∈ qs, stepKey s.1 = .str s.2)

include hps hqs

theorem steps_spliced :
    Tree.steps (spliced es (ps.map (·.1)) i (qs.map (·.1)) wic) =
      .ok (ps.take i ++ qs ++ ps.drop (i + 1)) := by
  have hkeys := (steps_iff.mp hps).2
  refine steps_iff.mpr ⟨?_, fun s hs => ?_⟩
  · simp [stepDocs, spliced, Doc.field, bind, Except.bind, Doc.members,
      get?_put_ne (show "wic" ≠ "steps" by decide)]
  · rw [mem_append, mem_append] at hs
    rcases hs with (hs | hs) | hs
    · exact hkeys s (mem_of_mem_take hs)
    · exact hqs s hs
    · exact hkeys s (mem_of_mem_drop hs)

theorem keys_spliced (heach : List.Forall₂ (fun s ks => keysAt keys s = .ok ks) ps kss)
    (hnew : List.Forall₂ (fun s ks => keysAt keys s = .ok ks) qs qss) :
    keys (spliced es (ps.map (·.1)) i (qs.map (·.1)) wic) =
      .ok ((kss.take i).flatten ++ qss.flatten ++ (kss.drop (i + 1)).flatten) := by
  refine keys_eq_ok.mpr ⟨_, kss.take i ++ qss ++ kss.drop (i + 1), steps_spliced hps hqs, ?_, ?_⟩
  · exact rel_append (rel_append (forall₂_take i heach) hnew) (forall₂_drop (i + 1) heach)
  · rw [flatten_append, flatten_append]

theorem Unimplemented.spliced (hun : Unimplemented (.map es))
    (hwic : ∀ impls, Tree.implementations? wic = .ok impls → impls = none)
    (hnew : ∀ s ∈ qs, isSubKey s.2 → ∀ sub, under? s.1 "subtree" = some sub → Unimplemented sub) :
    Unimplemented (Workflow.spliced es (ps.map (·.1)) i (qs.map (·.1)) wic) := by
  refine ⟨fun wic' impls hwic' himpls => ?_, fun ps' s sub hps' hs hkey hsub => ?_⟩
  · have hsame : wic' = wic := by
      rw [fieldD_eq_ok hwic']
      simp [Workflow.spliced]
    subst hsame
    exact hwic impls himpls
  · rw [steps_spliced hps hqs] at hps'
    cases hps'
    rw [mem_append, mem_append] at hs
    rcases hs with (hs | hs) | hs
    · exact hun.inner hps (mem_of_mem_take hs) hkey hsub
    · exact hnew s hs hkey sub hsub
    · exact hun.inner hps (mem_of_mem_drop hs) hkey hsub

end Splice

def look (s : Doc × String) : String × Option Doc := (s.2, under? s.1 "subtree")

theorem keysAt_look {below : Doc → Result (List String)} (h : look s' = look s)
    (hks : keysAt below s = .ok ks) : keysAt below s' = .ok ks := by
  obtain ⟨hkey, hsub⟩ := Prod.ext_iff.mp h
  simp only [look] at hkey hsub
  rw [keysAt] at hks ⊢
  rw [hkey]
  split at hks
  · rename_i hwic
    obtain ⟨sub, hread, hks⟩ := of_bind hks
    rw [field_eq_ok, ← hsub, ← field_eq_ok] at hread
    rw [if_pos hwic]
    exact bind_eq_ok.mpr ⟨sub, hread, hks⟩
  · rename_i hwic
    rw [if_neg hwic]
    exact hks

theorem steps_of_face (hqs : Tree.steps sub = .ok qs) (hxs : stepDocs sub = .ok xs)
    (hsame : ys.map face = xs.map face) :
    ∃ qs' : List (Doc × String), qs'.map (·.1) = ys ∧ (∀ s ∈ qs', stepKey s.1 = .str s.2) ∧
      qs'.map look = qs.map look := by
  obtain ⟨hdocs, hkeys⟩ := steps_iff.mp hqs
  rw [hxs, Except.ok.injEq] at hdocs
  subst hdocs
  clear hqs hxs
  induction qs generalizing ys with
  | nil =>
    rw [map_eq_nil_iff.mp hsame]
    exact ⟨[], rfl, by simp, rfl⟩
  | cons s qs ih =>
    obtain ⟨y, ys, rfl, hy, hrest⟩ := map_eq_cons_iff.mp hsame
    obtain ⟨hkey, hsub⟩ := Prod.ext_iff.mp hy
    obtain ⟨qs', hdocs, hkeys', hlook⟩ := ih (fun s hs => hkeys s (mem_cons_of_mem _ hs)) hrest
    refine ⟨(y, s.2) :: qs', by rw [map_cons, hdocs], ?_, ?_⟩
    · intro s' hs'
      rcases mem_cons.mp hs' with rfl | hs'
      · exact hkey.trans (hkeys s mem_cons_self)
      · exact hkeys' s' hs'
    · rw [map_cons, map_cons, hlook]
      exact congrArg (· :: _) (Prod.ext rfl hsub)

theorem inlineIn_keys {count : Nat} (hpath : LeadsIn t path) (hne : path ≠ [])
    (hun : Unimplemented t.yml) (hks : keys t.yml = .ok ks)
    (h : (inlineIn n t path).Yields (t', count)) :
    Unimplemented t'.yml ∧ ∃ as key bs, isSubKey key ∧ ks = as ++ key :: bs ∧
      keys t'.yml = .ok (as ++ bs) := by
  induction n generalizing t t' path ks count with
  | zero => exact absurd h yields_throw
  | succ n ih =>
    cases hpath with
    | here => exact absurd rfl hne
    | @step _ ps i x sub key path hps hi hkey hsub rest =>
      obtain ⟨es, wic, args, ys, wic', hes, hwic, -, rfl, hin⟩ :=
        inlineIn_cases (fun _ _ => hun.own) hps hi hsub h
      have hyml := field_eq_ok.mp hsub
      have hinner := hun.inner hps (mem_of_getElem? hi) hkey hyml
      have hown : ∀ impls, Tree.implementations? wic = .ok impls → impls = none :=
        fun _ => hun.own hwic
      rw [hes] at hun hps hks
      obtain ⟨_, kss, hps', heach, rfl⟩ := keys_eq_ok.mp hks
      cases hps.symm.trans hps'
      -- the keys at the step are its own and those of the workflow inside
      obtain ⟨ks, hget, hat⟩ := forall₂_at heach hi
      obtain ⟨inner, hkeys, rfl⟩ := (keysAt_sub (s := (_, key)) hkey hyml).mp hat
      have hsplit : kss.flatten = (kss.take i).flatten ++
          key :: (inner ++ (kss.drop (i + 1)).flatten) := by
        obtain ⟨hlt, hget⟩ := List.getElem?_eq_some_iff.mp hget
        have hall := congrArg flatten (take_append_drop i kss)
        rw [drop_eq_getElem_cons hlt, hget, flatten_append, flatten_cons] at hall
        exact hall.symm
      cases hin with
      | here given steps lift notes =>
        obtain ⟨-, xs, _, hxs, hys, hface⟩ := applyArgs_face given
        cases steps.symm.trans hys
        obtain ⟨qs, qss, hqs, hqss, rfl⟩ := keys_eq_ok.mp hkeys
        obtain ⟨qs', rfl, hkeys', hlook⟩ := steps_of_face hqs hxs hface
        have hnew : List.Forall₂ (fun s ks => keysAt keys s = .ok ks) qs' qss :=
          forall₂_of_map_eq (R := fun s ks => keysAt keys s = .ok ks) (fun _ _ _ =>
            keysAt_look) hlook hqss
        refine ⟨hun.spliced hps hkeys' ?_ ?_, _, key, _, hkey, hsplit, ?_⟩
        · exact (inlineNotes_same notes).implementations?
            ((liftNotes_same lift).implementations? hown)
        · intro s' hs' hkey' sub' hsub'
          obtain ⟨s, hs, hsame⟩ := mem_map.mp (hlook ▸ mem_map_of_mem hs')
          obtain ⟨hkey, hsub⟩ := Prod.ext_iff.mp hsame
          simp only [look] at hkey hsub
          exact hinner.inner hqs hs (hkey ▸ hkey') (hsub.trans hsub')
        · rw [keys_spliced hps hkeys' heach hnew, append_assoc]
      | @inside r _ m path _ inside notes =>
        obtain ⟨hun', as, key', bs, hkey', rfl, hkeys'⟩ :=
          ih rest (cons_ne_nil _ _) hinner hkeys inside
        let step := Doc.obj [("id", .str key), ("subtree", r.yml), ("parentargs", args)]
        have hstep : ∀ s ∈ [(step, key)], stepKey s.1 = .str s.2 := by
          intro s hs
          rw [mem_singleton.mp hs]
          rfl
        have hnew : List.Forall₂ (fun s ks => keysAt keys s = .ok ks) [(step, key)]
            [key :: (as ++ bs)] :=
          .cons ((keysAt_sub (s := (step, key)) hkey rfl).mpr ⟨_, hkeys', rfl⟩) .nil
        have hafter :
            Unimplemented (spliced es (ps.map (·.1)) i ([(step, key)].map (·.1)) wic') := by
          refine hun.spliced hps hstep ((inlineNotes_same notes).implementations? hown) ?_
          intro s hs _ sub' hsub'
          rw [mem_singleton.mp hs] at hsub'
          cases hsub'
          exact hun'
        have hread : keys (spliced es (ps.map (·.1)) i ([(step, key)].map (·.1)) wic') = _ :=
          keys_spliced hps hstep heach hnew
        refine ⟨hafter, (kss.take i).flatten ++ key :: as, key', bs ++ (kss.drop (i + 1)).flatten,
          hkey', ?_, ?_⟩
        · rw [hsplit]
          simp
        · rw [map_singleton] at hread
          rw [hread]
          simp

/-! All inlinings. -/

theorem inlineAll_keys {ps : List Namespaces} (hun : Unimplemented t.yml)
    (hks : keys t.yml = .ok ks) (h : (inlineAll n t).Yields (t', ps)) :
    ∃ ks', keys t'.yml = .ok ks' ∧ ks'.filter (!isSubKey ·) = ks.filter (!isSubKey ·) ∧
      ks'.countP isSubKey + ps.length = ks.countP isSubKey ∧
      (ps.length < n → inlineable t' = .ok []) := by
  induction n generalizing t t' ps ks with
  | zero =>
    cases yields_pure.mp h
    exact ⟨ks, hks, rfl, rfl, fun hlt => absurd hlt (Nat.not_lt_zero _)⟩
  | succ n ih =>
    obtain ⟨paths, hpaths, h⟩ := h.of_lift
    cases paths with
    | nil =>
      cases yields_pure.mp h
      exact ⟨ks, hks, rfl, rfl, fun _ => hpaths⟩
    | cons path rest =>
      obtain ⟨⟨u, count⟩, hu, ⟨t'', ps'⟩, hrest, h⟩ := h.of_bind₂
      cases yields_pure.mp h
      obtain ⟨hne, _, rfl, hleads⟩ := (inlineableIn_leads hun hpaths).2 _ mem_cons_self
      obtain ⟨hun', as, key, bs, hkey, rfl, hks'⟩ := inlineIn_keys hleads hne hun hks hu
      obtain ⟨ks', hread, hleaves, hcount, hnone⟩ := ih hun' hks' hrest
      refine ⟨ks', hread, ?_, ?_, fun hlt => hnone (Nat.lt_of_succ_lt_succ hlt)⟩
      · rw [hleaves]
        simp [hkey]
      · simp only [countP_append, countP_cons_of_pos hkey, length_cons] at hcount ⊢
        omega

/-- Inlining a workflow takes one step that runs a workflow away and keeps the tool steps in their
order, so inlining all of them ends after no more inlinings than there were such steps. -/
theorem inlining_keeps_leaves {t : Tree} {paths : List Namespaces} (hun : Unimplemented t.yml)
    (hpaths : inlineable t = .ok paths) :
    ∃ leaves subs, leafKeys t.yml = .ok leaves ∧ subCount t.yml = .ok subs ∧
      (∀ path ∈ paths, ∀ t' count, (inlineAt t path).Yields (t', count) →
        ∃ subs', subCount t'.yml = .ok subs' ∧ subs' + 1 = subs ∧ leafKeys t'.yml = .ok leaves) ∧
      ∀ t' ps, (inlineEverywhere t).Yields (t', ps) →
        ps.length ≤ subs ∧ inlineable t' = .ok [] ∧ leafKeys t'.yml = .ok leaves := by
  obtain ⟨⟨ks, hks⟩, hlead⟩ := inlineableIn_leads hun hpaths
  refine ⟨ks.filter (!isSubKey ·), ks.countP isSubKey, ?_, ?_, ?_, ?_⟩
  · rw [leafKeys, hks]
    rfl
  · rw [subCount, hks]
    rfl
  · intro path hpath t' count h
    obtain ⟨hne, _, rfl, hleads⟩ := hlead path hpath
    obtain ⟨-, as, key, bs, hkey, rfl, hks'⟩ := inlineIn_keys hleads hne hun hks h
    refine ⟨(as ++ bs).countP isSubKey, ?_, ?_, ?_⟩
    · rw [subCount, hks']
      rfl
    · simp only [List.countP_append, List.countP_cons_of_pos hkey]
      omega
    · rw [leafKeys, hks']
      simp [hkey, bind, Except.bind, pure, Except.pure]
  · intro t' ps h
    obtain ⟨ks', hks', hleaves, hcount, hnone⟩ := inlineAll_keys hun hks h
    have hle := countP_keys_le hks
    refine ⟨by omega, hnone (by omega), ?_⟩
    rw [leafKeys, hks', ← hleaves]
    rfl

namespace Sample

def steps (xs : List Doc) : Doc := Doc.obj [("steps", .list xs)]

def tool (key : String) : Doc := Doc.obj [("id", .str key), ("in", Doc.obj [("m", .str "~x")])]

def runs (key : String) (sub : Doc) (ins : List (String × Doc)) : Doc :=
  Doc.obj [("id", .str key), ("subtree", sub), ("parentargs", Doc.obj [("in", Doc.obj ins)])]

def middle : Doc :=
  Doc.obj [("inputs", Doc.obj [("x", .str "string")]),
    ("steps", .list [tool "echo", runs "inner.wic" (steps [tool "cat", tool "cat"]) [],
      tool "echo"])]

def twice : Tree :=
  ⟨⟨"wf.wic", globalSpace⟩, steps [tool "cat", runs "middle.wic" middle [("x", .str "v")]]⟩

theorem inlineable_twice :
    inlineable twice = .ok [["wf__step__2__middle.wic"],
      ["wf__step__2__middle.wic", "middle__step__2__inner.wic"]] := by
  decide +kernel

theorem unimplemented_twice : Unimplemented twice.yml := .of_lacksImpls (n := 4) (by decide +kernel)

end Sample

open Sample in
theorem inlining_keeps_leaves_twice :
    subCount twice.yml = .ok 2 ∧ ∃ t' ps, (inlineEverywhere twice).Yields (t', ps) ∧ ps.length ≤ 2 ∧
      inlineable t' = .ok [] ∧ leafKeys t'.yml = .ok ["cat", "echo", "cat", "cat", "echo"] := by
  have hsome : (((inlineEverywhere twice).outcome {}).1.toOption).isSome = true := by decide +kernel
  obtain ⟨⟨t', ps⟩, hr⟩ := Logged.yields_of_isSome hsome
  have hsubs : subCount twice.yml = .ok 2 := by decide +kernel
  have hleaves : leafKeys twice.yml = .ok ["cat", "echo", "cat", "cat", "echo"] := by decide +kernel
  obtain ⟨leaves, subs, hl, hs, -, hall⟩ :=
    inlining_keeps_leaves unimplemented_twice inlineable_twice
  rw [hleaves] at hl
  rw [hsubs] at hs
  cases hl
  cases hs
  exact ⟨hsubs, t', ps, hr, hall t' ps hr⟩

end Workflow

end WorkflowInference
