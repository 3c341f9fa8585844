import WorkflowInference.Proofs.Merging

/-!
Canonical workflows. A workflow in canonical form stays as it is, and it does not matter whether its
inputs, outputs and steps are listed with their names or stand under them.
-/
namespace WorkflowInference.Workflow

open Entries Result List

variable {es fs : Entries} {d d' v w : Doc} {xs : List Doc} {k : String} {f : Doc → Result Doc}

/-! What the parts of a canonical document are. -/

def CanonicalInputs (d : Doc) : Prop := ∃ es, d = .map es ∧ ∀ e ∈ es, e.2.isMap

def CanonicalOutputs (d : Doc) : Prop := ∃ es, d = .map es ∧ ∀ e ∈ es, (e.2.isMap || e.2.isStr)

def CanonicalSteps (d : Doc) : Prop :=
  d.isMap = false ∧ ∀ xs, d = .list xs → ∀ x ∈ xs, ∃ id, requireId "step" x = .ok id

theorem CanonicalInputs.eq_ok (h : CanonicalInputs d) : inputMap d = .ok d := by
  obtain ⟨es, rfl, h⟩ := h
  refine bind_eq_ok.mpr ⟨es, mapM_of_forall₂ (forall₂_same.mpr fun e he => ?_), rfl⟩
  have hmap := h e he
  split <;> simp_all [Doc.isMap]

theorem CanonicalOutputs.eq_ok (h : CanonicalOutputs d) : outputMap d = .ok d := by
  obtain ⟨es, rfl, h⟩ := h
  exact if_pos (all_eq_true.mpr h)

theorem CanonicalSteps.eq_ok (h : CanonicalSteps d) : stepList d = .ok d := by
  obtain ⟨hmap, h⟩ := h
  cases d with
  | list xs =>
    have hid := h xs rfl
    have hmaps : xs.all Doc.isMap := by
      refine all_eq_true.mpr fun x hx => ?_
      obtain ⟨id, hid⟩ := hid x hx
      cases x <;> first | rfl | cases hid
    choose! id hid using hid
    rw [stepList, if_pos hmaps]
    refine bind_eq_ok.mpr ⟨xs.map id, mapM_of_forall₂ ?_, rfl⟩
    rw [forall₂_map_right_iff, forall₂_same]
    exact hid
  | map => cases hmap
  | _ => rfl

theorem byId_isMap (h : byId xs = .ok d) : CanonicalInputs d := by
  obtain ⟨es, hes, h⟩ := of_bind h
  refine ⟨es, (pure_eq_ok.mp h).symm, ?_⟩
  refine (foldlM_eq_ok hes).keeps (P := fun es => ∀ e ∈ es, e.2.isMap) ?_ nofun
  intro x _ es fs hes h e he
  obtain ⟨id, -, rfl⟩ := of_map h
  rcases mem_put he with he | rfl
  · exact hes e he
  · rfl

theorem inputMap_canonical (h : inputMap d = .ok d') : CanonicalInputs d' := by
  cases d with
  | map es =>
    obtain ⟨fs, hfs, rfl⟩ := of_map h
    refine ⟨fs, rfl, fun e he => ?_⟩
    obtain ⟨b, -, hb⟩ := mem_of_mapM hfs he
    split at hb <;> cases hb
    · simp_all [Doc.isMap]
    · rfl
  | list xs =>
    rw [inputMap] at h
    split at h
    · exact byId_isMap h
    · cases h
  | _ =>
    cases h
    exact ⟨[], rfl, forall_mem_nil _⟩

theorem outputMap_canonical (h : outputMap d = .ok d') : CanonicalOutputs d' := by
  cases d with
  | map es =>
    rw [outputMap] at h
    split at h
    · rename_i hall
      cases h
      exact ⟨es, rfl, all_eq_true.mp hall⟩
    · cases h
  | list xs =>
    rw [outputMap] at h
    split at h
    · obtain ⟨es, rfl, hes⟩ := byId_isMap h
      exact ⟨es, rfl, fun e he => by rw [hes e he, Bool.true_or]⟩
    · cases h
  | _ =>
    cases h
    exact ⟨[], rfl, forall_mem_nil _⟩

def Anonymous (d : Doc) : Prop :=
  ∀ es, d = .map es → ∀ k fs, (k, Doc.map fs) ∈ es → has fs "id" = false

theorem stepList_canonical (hanon : Anonymous d) (h : stepList d = .ok d') : CanonicalSteps d' := by
  cases d with
  | map es =>
    rw [stepList] at h
    split at h
    · cases h
    · rename_i hkeys
      split at h
      · rename_i hvalues
        cases h
        refine ⟨rfl, ?_⟩
        rintro _ ⟨⟩ x hx
        obtain ⟨⟨k, v⟩, he, rfl⟩ := mem_map.mp hx
        have hfs : has (v.map?.getD []) "id" = false := by
          cases v with
          | map fs => exact hanon es rfl k fs he
          | _ => rfl
        have hk := fun h => hkeys (any_eq_true.mpr ⟨_, he, h⟩)
        cases k with
        | str s =>
          have hs : s ≠ "" := fun hs => hk (by simp [hs])
          have hskip :=
            fun f hf heq => Bool.eq_false_iff.mp hfs (has_iff_mem.mpr (mem_map.mpr ⟨f, hf, heq⟩))
          exact ⟨s, by simp [requireId, get?_update_ne hskip, get?, hs]⟩
        | _ => exact absurd rfl hk
      · cases h
  | list xs =>
    rw [stepList] at h
    split at h
    · obtain ⟨ids, hids, h⟩ := of_bind h
      cases h
      refine ⟨rfl, ?_⟩
      rintro _ ⟨⟩ x hx
      obtain ⟨id, -, hid⟩ := mem_mapM hids hx
      exact ⟨id, hid⟩
    · cases h
  | _ =>
    cases h
    exact ⟨rfl, by rintro _ ⟨⟩⟩

theorem onPart_of_ok (h : ∀ v, get? es k = some v → f v = .ok v) : onPart k f es = .ok es := by
  rw [onPart]
  cases hv : get? es k with
  | none => rfl
  | some v =>
    dsimp only
    rw [h v hv]
    exact congrArg Except.ok (put_of_get? hv)

theorem onPart_eq_ok (h : onPart k f es = .ok fs) : (∀ l, l ≠ k → get? fs l = get? es l) ∧
    ∀ w, get? fs k = some w ↔ ∃ v, get? es k = some v ∧ f v = .ok w := by
  rw [onPart] at h
  cases hv : get? es k with
  | none =>
    rw [hv] at h
    cases h
    simp [hv]
  | some v =>
    rw [hv] at h
    obtain ⟨u, hu, rfl⟩ := of_map h
    exact ⟨fun l hl => get?_put_ne (Ne.symm hl), by simp [hu]⟩

structure Canonical (es : Entries) : Prop where
  inputs : ∀ v, get? es "inputs" = some v → CanonicalInputs v
  outputs : ∀ v, get? es "outputs" = some v → CanonicalOutputs v
  steps : ∀ v, get? es "steps" = some v → CanonicalSteps v

theorem Canonical.eq_ok (h : Canonical es) : canonical (.map es) = .ok (.map es) :=
  bind_eq_ok.mpr ⟨es, onPart_of_ok fun v hv => (h.inputs v hv).eq_ok,
    bind_eq_ok.mpr ⟨es, onPart_of_ok fun v hv => (h.outputs v hv).eq_ok,
      bind_eq_ok.mpr ⟨es, onPart_of_ok fun v hv => (h.steps v hv).eq_ok, rfl⟩⟩⟩

theorem canonical_parts (h : canonical (.map es) = .ok d) : ∃ fs, d = .map fs ∧
    (∀ w, get? fs "inputs" = some w ↔ ∃ v, get? es "inputs" = some v ∧ inputMap v = .ok w) ∧
    (∀ w, get? fs "outputs" = some w ↔ ∃ v, get? es "outputs" = some v ∧ outputMap v = .ok w) ∧
    ∀ w, get? fs "steps" = some w ↔ ∃ v, get? es "steps" = some v ∧ stepList v = .ok w := by
  obtain ⟨es₁, h₁, es₂, h₂, es₃, h₃, h⟩ := of_bind₃ h
  obtain ⟨hrest₁, hin⟩ := onPart_eq_ok h₁
  obtain ⟨hrest₂, hout⟩ := onPart_eq_ok h₂
  obtain ⟨hrest₃, hsteps⟩ := onPart_eq_ok h₃
  refine ⟨es₃, (pure_eq_ok.mp h).symm, ?_, ?_, ?_⟩
  · rwa [hrest₃ _ (by decide), hrest₂ _ (by decide)]
  · rwa [hrest₃ _ (by decide), ← hrest₁ _ (by decide)]
  · rwa [← hrest₁ _ (by decide), ← hrest₂ _ (by decide)]

variable {ps : List (String × Entries)}

def listed (ps : List (String × Entries)) : Doc :=
  .list (ps.map fun p => .map ((.str "id", .str p.1) :: p.2))

def keyed (ps : List (String × Entries)) : Doc := .map (ps.map fun p => (.str p.1, .map p.2))

structure Distinct (ps : List (String × Entries)) : Prop where
  nodup : (ps.map (·.1)).Nodup
  named : ∀ p ∈ ps, p.1 ≠ ""
  /-- No part has an entry for its name, or one key twice. -/
  once : ∀ p ∈ ps, ofPairs ((.str "id", .str p.1) :: p.2) = (.str "id", .str p.1) :: p.2

theorem requireId_listed {p : String × Entries} (hp : p.1 ≠ "") :
    requireId "step" (.map ((.str "id", .str p.1) :: p.2)) = .ok p.1 := if_neg hp

theorem byId_listed (h : Distinct ps) :
    byId (ps.map fun p => .map ((.str "id", .str p.1) :: p.2)) = .ok (keyed ps) := by
  unfold byId
  extract_lets one
  rw [foldlM_map,
    foldlM_put (fun es p hp => by simp only [one, requireId_listed (h.named p hp)]; rfl) h.nodup]
  rfl

theorem keyed_inputs : CanonicalInputs (keyed ps) := ⟨_, rfl, forall_mem_map.mpr fun _ _ => rfl⟩

theorem keyed_outputs : CanonicalOutputs (keyed ps) := ⟨_, rfl, forall_mem_map.mpr fun _ _ => rfl⟩

theorem listed_steps (h : Distinct ps) : CanonicalSteps (listed ps) := by
  refine ⟨rfl, ?_⟩
  rintro _ ⟨⟩ x hx
  obtain ⟨p, hp, rfl⟩ := mem_map.mp hx
  exact ⟨p.1, requireId_listed (h.named p hp)⟩

theorem inputMap_listed (h : Distinct ps) : inputMap (listed ps) = inputMap (keyed ps) := by
  rw [keyed_inputs.eq_ok, ← byId_listed h]
  exact if_pos (by simp [Doc.isMap])

theorem outputMap_listed (h : Distinct ps) : outputMap (listed ps) = outputMap (keyed ps) := by
  rw [keyed_outputs.eq_ok, ← byId_listed h]
  exact if_pos (by simp [Doc.isMap])

theorem stepList_listed (h : Distinct ps) : stepList (listed ps) = stepList (keyed ps) := by
  rw [(listed_steps h).eq_ok, keyed, stepList, if_neg, if_pos]
  · rw [map_map]
    exact congrArg (Except.ok ∘ Doc.list) (map_congr_left fun p hp =>
      congrArg Doc.map (h.once p hp).symm)
  · simp [Doc.isMap]
  · have hnamed := h.named
    simpa [Doc.isStr] using fun fs hp => hnamed ("", fs) hp rfl

theorem put_comm (hl : k ≠ l) (h : get? es l = some u) :
    put (put es k v) l w = put (put es l w) k v := by
  induction es with
  | nil => cases h
  | cons e es ih =>
    obtain ⟨m, u⟩ := e
    cases m <;> simp_all [put, get?]
    grind [put]

theorem onPart_put_self (h : f v = f w) : onPart k f (put es k v) = onPart k f (put es k w) := by
  have hput (v) : put (put es k v) k = put es k := funext fun _ => put_put
  rw [onPart, onPart, get?_put_self, get?_put_self]
  dsimp only
  rw [hput, hput, h]

theorem onPart_put_ne {g : Entries → Result Doc} (hl : k ≠ l)
    (h : ∀ es, g (put es k v) = g (put es k w)) :
    onPart l f (put es k v) >>= g = onPart l f (put es k w) >>= g := by
  rw [onPart, onPart, get?_put_ne hl, get?_put_ne hl]
  cases hu : get? es l with
  | none => exact h es
  | some u =>
    dsimp only
    cases f u with
    | error => rfl
    | ok u' =>
      change g (put (put es k v) l u') = g (put (put es k w) l u')
      rw [put_comm hl hu, put_comm hl hu]
      exact h _

theorem canonical_listed (h : Distinct ps) (hk : k ∈ ["inputs", "outputs", "steps"]) :
    canonical (.map (put es k (listed ps))) = canonical (.map (put es k (keyed ps))) := by
  rcases mem_cons.mp hk with rfl | hk
  · rw [canonical, onPart_put_self (inputMap_listed h)]
    rfl
  rcases mem_cons.mp hk with rfl | hk
  · exact onPart_put_ne (by decide) fun es => by rw [onPart_put_self (outputMap_listed h)]
  · obtain rfl := mem_singleton.mp hk
    exact onPart_put_ne (by decide) fun es => onPart_put_ne (by decide) fun es => by
      rw [onPart_put_self (stepList_listed h)]

theorem canonical_normal (d : Doc) (es : Entries) :
    (∀ d', canonical d = .ok d' → (∀ v, Compile.under? d "steps" = some v → Anonymous v) →
      canonical d' = .ok d' ∧ ∀ fs, d' = .map fs → Canonical fs) ∧
    ∀ k ∈ ["inputs", "outputs", "steps"], ∀ ps, Distinct ps →
      canonical (.map (put es k (listed ps))) = canonical (.map (put es k (keyed ps))) ∧
      ∀ fs, canonical (.map (put es k (keyed ps))) = .ok (.map fs) →
        get? fs k = some (if k = "steps" then listed ps else keyed ps) := by
  refine ⟨fun d' h hanon => ?_, fun k hk ps hps => ⟨canonical_listed hps hk, fun fs h => ?_⟩⟩
  · cases d with
    | map es =>
      obtain ⟨fs, rfl, hin, hout, hsteps⟩ := canonical_parts h
      have hfs : Canonical fs := by
        refine ⟨fun w hw => ?_, fun w hw => ?_, fun w hw => ?_⟩
        · obtain ⟨v, -, hv⟩ := (hin w).mp hw
          exact inputMap_canonical hv
        · obtain ⟨v, -, hv⟩ := (hout w).mp hw
          exact outputMap_canonical hv
        · obtain ⟨v, hget, hv⟩ := (hsteps w).mp hw
          exact stepList_canonical (hanon v hget) hv
      refine ⟨hfs.eq_ok, ?_⟩
      rintro _ ⟨⟩
      exact hfs
    | str s =>
      have h' := h
      rw [canonical] at h'
      split at h' <;> cases h'
      exact ⟨h, nofun⟩
    | list xs =>
      have h' := h
      rw [canonical] at h'
      split at h' <;> cases h'
      exact ⟨h, nofun⟩
    | _ => cases h
  · obtain ⟨fs', heq, hin, hout, hsteps⟩ := canonical_parts h
    cases heq
    rcases mem_cons.mp hk with rfl | hk
    · exact (hin _).mpr ⟨_, get?_put_self, keyed_inputs.eq_ok⟩
    rcases mem_cons.mp hk with rfl | hk
    · exact (hout _).mpr ⟨_, get?_put_self, keyed_outputs.eq_ok⟩
    · obtain rfl := mem_singleton.mp hk
      refine (hsteps _).mpr ⟨_, get?_put_self, ?_⟩
      rw [← stepList_listed hps]
      exact (listed_steps hps).eq_ok

end WorkflowInference.Workflow
