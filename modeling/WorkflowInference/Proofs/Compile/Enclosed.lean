import WorkflowInference.Compile.Adapt
import WorkflowInference.Proofs.Compile.Written

/-!
Documents that hold what their steps run. A compiled workflow with all documents inside it has, in
each of its steps, what the part at the same place becomes in the same way.
-/
namespace WorkflowInference.Compile

open Entries Result List Option PartTree

variable {xs : List Doc} {es : Entries} {q p : PartTree} {k : Nat}

/-- A document as it stands in a step that runs it: what it says about name spaces is left out. -/
def bare : Doc → Doc
  | .map es => .map (remove (remove es "$namespaces") "$schemas")
  | d => d

def stepsOf (d : Doc) : List Doc := ((under? d "steps").bind Doc.list?).getD []

def runAt (d : Doc) : List Nat → Option Doc
  | [] => some d
  | k :: ks => ((stepsOf d)[k]?).bind fun step => (under? step "run").bind (runAt · ks)

variable {name : String} {b m : Nat} {w w' : Entries} {d : Doc}

theorem stepsOf_bare (d : Doc) : stepsOf (bare d) = stepsOf d := by
  cases d with
  | map es =>
    rw [stepsOf, bare, under?_map, get?_remove_ne (by decide), get?_remove_ne (by decide), stepsOf,
      under?_map]
  | _ => rfl

theorem runAt_bare (d : Doc) (k : Nat) (ks : List Nat) :
    runAt (bare d) (k :: ks) = runAt d (k :: ks) := by
  rw [runAt, stepsOf_bare, runAt]

theorem find_spec
    (h : embed.find (fun s => do return (← s.fieldD "id" .null) == .str name) xs b = .ok m) :
    ∃ k x, m = b + k ∧ xs[k]? = some x ∧ stepId x = name := by
  induction xs generalizing b with
  | nil => cases h
  | cons x xs ih =>
    rw [embed.find] at h
    obtain ⟨found, hfound, h⟩ := of_bind h
    obtain ⟨id, hid, hfound⟩ := of_bind hfound
    cases pure_eq_ok.mp hfound
    split at h
    · rename_i heq
      rw [Doc.beq_str_iff] at heq
      have hunder := fieldD_eq_ok hid
      refine ⟨0, x, (pure_eq_ok.mp h).symm, rfl, ?_⟩
      cases hx : under? x "id" with
      | none => rw [hx, heq] at hunder; cases hunder
      | some v =>
        rw [hx, heq, getD_some] at hunder
        rw [stepId, hx, ← hunder]
        rfl
    · obtain ⟨k, y, rfl, hy, hname⟩ := ih h
      exact ⟨k + 1, y, by omega, hy, hname⟩

theorem embed_spec (h : embed w name run = .ok w') (hxs : get? w "steps" = some (.list xs)) :
    ∃ (m : Nat) (es : Entries), xs[m]? = some (.map es) ∧ stepId (.map es) = name ∧
      get? w' "steps" = some (.list (xs.set m (.map (put es "run" (bare run))))) := by
  obtain ⟨d, hd, h⟩ := of_bind h
  rw [field_eq_ok, under?_map, hxs] at hd
  cases hd
  obtain ⟨ys, hys, h⟩ := of_bind h
  cases hys
  obtain ⟨m, hm, h⟩ := of_bind h
  obtain ⟨k, x, rfl, hx, hname⟩ := find_spec hm
  obtain ⟨inner, -, h⟩ := of_bind h
  dsimp only at h
  split at h
  swap
  · cases h
  obtain ⟨spaces, -, rs, hrs, es, hes, hw⟩ := of_bind₃ h
  rw [Nat.zero_add, getD_of_getElem? hx, entries_eq_ok] at hes
  rw [entries_eq_ok] at hrs
  subst hes hrs
  refine ⟨k, es, hx, hname, ?_⟩
  rw [← pure_eq_ok.mp hw, get?_put_ne (by decide), get?_put_self, Nat.zero_add]
  rfl

theorem stepId_put_run (es : Entries) (run : Doc) :
    stepId (.map (put es "run" run)) = stepId (.map es) := by
  rw [stepId, stepId, under?_map, under?_map, get?_put_ne (by decide)]

theorem map_stepId_set (run : Doc) (hm : xs[m]? = some (.map es)) :
    (xs.set m (.map (put es "run" run))).map stepId = xs.map stepId := by
  refine ext_getElem? fun j => ?_
  rw [getElem?_map, getElem?_map, getElem?_set]
  split
  · rename_i heq
    subst heq
    rw [if_pos (List.getElem?_eq_some_iff.mp hm).1, hm, map_some, map_some, stepId_put_run]
  · rfl

theorem embedAll_spec (h : embedAll w ts = .ok w')
    (hxs : get? w "steps" = some (.list xs)) (hids : (xs.map stepId).Nodup)
    (hts : ∀ k t, ts[k]? = some t → (xs.map stepId)[b + k]? = some t.lastName) :
    ∃ ys, get? w' "steps" = some (.list ys) ∧ (∀ m < b, ys[m]? = xs[m]?) ∧
      ∀ k t, ts[k]? = some t → ∃ y run, ys[b + k]? = some y ∧ t.embedded = .ok run ∧
      under? y "run" = some (bare run) := by
  induction ts generalizing w xs b with
  | nil =>
    cases h
    exact ⟨xs, hxs, fun _ _ => rfl, by simp⟩
  | cons t ts ih =>
    rw [embedAll] at h
    split at h
    · cases h
    rename_i run hrun
    split at h
    · cases h
    rename_i name hname
    split at h
    · cases h
    rename_i v hv
    obtain ⟨m, es, hm, hid, hsteps⟩ := embed_spec hv hxs
    have hlast : t.lastName = name := lastName_eq hname
    have hmb : m = b := by
      have hm' : (xs.map stepId)[m]? = some name := by rw [getElem?_map, hm, map_some, hid]
      have hb := hts 0 t rfl
      rw [hlast] at hb
      exact (getElem?_inj (List.getElem?_eq_some_iff.mp hm').1 hids).mp (hm'.trans hb.symm)
    subst hmb
    have hmap := map_stepId_set (bare run) hm
    obtain ⟨ys, hys, hbefore, hafter⟩ := ih (b := m + 1) h hsteps (by rwa [hmap]) fun k u hu => by
      rw [hmap]
      have := hts (k + 1) u hu
      rwa [← Nat.add_assoc, Nat.add_right_comm] at this
    refine ⟨ys, hys, fun j hj => ?_, ?_⟩
    · rw [hbefore j (by omega), getElem?_set_ne (by omega)]
    · rintro (_ | k) u hu
      · cases hu
        refine ⟨.map (put es "run" (bare run)), run, ?_, hrun, by rw [under?_map, get?_put_self]⟩
        rw [Nat.add_zero, hbefore m (Nat.lt_succ_self m),
          getElem?_set_self (List.getElem?_eq_some_iff.mp hm).1]
      · obtain ⟨y, run', hy, hrun', hunder⟩ := hafter k u hu
        exact ⟨y, run', by rwa [← Nat.add_assoc, Nat.add_right_comm], hrun', hunder⟩

structure Fitted (q : PartTree) (es : Entries) : Prop where
  cwl : q.part.cwl = .map es
  cls : get? es "class" = some (.str "Workflow")
  steps : get? es "steps" = some (.list q.steps)
  ids : (q.steps.map stepId).Nodup
  length : q.subs.length = q.steps.length
  named : ∀ (k : Nat) (p : PartTree), q.subs[k]? = some p →
    p.part.namespaces.getLast? = some p.lastName ∧
    ∃ fs, q.steps[k]? = some (.map fs) ∧ get? fs "id" = some (.str p.lastName)

theorem Fitted.names (h : Fitted q es) (hp : q.subs[k]? = some p) :
    (q.steps.map stepId)[k]? = some p.lastName := by
  obtain ⟨-, fs, hfs, hid⟩ := h.named k p hp
  rw [getElem?_map, hfs, map_some, stepId_eq hid]

theorem embedded_leaf (hd : q.embedded = .ok d) (hleaf : q.subs = []) : d = q.part.cwl := by
  obtain ⟨part, ts⟩ := q
  cases hleaf
  rw [embedded] at hd
  split at hd
  · rename_i es hes
    split at hd
    · cases hd
      exact hes.symm
    · exact (Except.ok.inj hd).symm
  · cases hd

theorem Fitted.embedded (h : Fitted q es) (hd : q.embedded = .ok d) (hp : q.subs[k]? = some p) :
    ∃ run, p.embedded = .ok run ∧ ∀ ks, runAt (bare d) (k :: ks) = runAt (bare run) ks := by
  obtain ⟨part, ts⟩ := q
  rw [embedded, show part.cwl = .map es from h.cwl] at hd
  dsimp only at hd
  rw [h.cls, if_pos (by simp)] at hd
  cases hall : embedAll es ts with
  | error e => rw [hall] at hd; cases hd
  | ok w =>
    rw [hall] at hd
    cases hd
    obtain ⟨ys, hys, -, hrun⟩ := embedAll_spec (b := 0) hall h.steps h.ids fun j t ht => by
      rw [Nat.zero_add]
      exact h.names ht
    obtain ⟨y, run, hy, hrun, hunder⟩ := hrun k p hp
    have hstep : (stepsOf (.map w))[k]? = some y := by
      rw [stepsOf, under?_map, hys, ← hy, Nat.zero_add]
      rfl
    refine ⟨run, hrun, fun ks => ?_⟩
    rw [runAt_bare, runAt, hstep, bind_some, hunder, bind_some]

section Once

variable {set : Setting} {n : Nat} {t : Task} {r : Compiled}

theorem OnceRun.noteAt_last {sub : Compiler} (run : OnceRun sub set t r)
    (htool : Workflow.isSubKey key = false) :
    noteAt run.last.notes k key = noteAt run.start.notes k key :=
  run.keeps_steps (P := fun _ d => noteAt d.notes k key = noteAt run.start.notes k key)
    (fun _ _ _ here hd => (here.head.notes_noteAt htool).trans hd) rfl

theorem OnceRun.step_named (run : OnceRun (compileAt set n) set t r)
    (hp : r.tree.subs[k]? = some p) : p.part.namespaces.getLast? = some p.lastName ∧
      ∃ fs, r.tree.steps[k]? = some (.map fs) ∧ get? fs "id" = some (.str p.lastName) := by
  have hk := run.lt_of_sub hp
  obtain ⟨place⟩ := run.placeAt hk
  have hlast := place.here.getLast?_namespaces (fun _ _ => compileAt_namespaces) hp
  obtain ⟨step, hstep⟩ := run.exists_step hk
  obtain ⟨note, space, fs, hnote, rfl, hid, -⟩ := nameStep_spec (run.naming_at hstep).2
  have hkey : run.scope.keys.getD k "" = place.here.key := by
    rw [← place.here.keys_getD, run.keysIn_eq]
    rfl
  rw [hkey] at hnote hid
  -- the name was told when the step was compiled; it is told anew at the end
  have hname : nameAt run.scope k place.here.key space = place.here.head.site.name := by
    cases hsub : Workflow.isSubKey place.here.key with
    | true =>
      have hfixed : ∀ space', nameAt run.scope k place.here.key space' =
          stepName run.scope.stem k place.here.key :=
        fun space' => nameAt_eq fun htool => by rw [hsub] at htool; cases htool
      exact (hfixed space).trans (hfixed place.here.head.space).symm
    | false =>
      rw [run.noteAt_last hsub, place.here.noted] at hnote
      cases hnote
      rfl
  rw [Compile.lastName_eq hlast]
  exact ⟨hlast, fs, hstep, by rw [hid, hname]⟩

theorem OnceRun.fitted (run : OnceRun (compileAt set n) set t r)
    (hids : (r.tree.steps.map stepId).Nodup) : ∃ es, Fitted r.tree es := by
  obtain ⟨concl⟩ := run.concluded
  have hcls := run.cls
  rw [concl.part, under?_map] at hcls
  have hsteps := concl.tree_steps
  refine ⟨concl.cwl, concl.part,
    hcls, by rw [hsteps, concl.steps], hids, ?_, fun k p hp => run.step_named hp⟩
  rw [run.subs_length, hsteps, length_mapM concl.naming, length_range]
  rfl

end Once

end WorkflowInference.Compile
