import WorkflowInference.Proofs.Compile.Written

/-!
What a workflow declares by itself, once it is compiled: its inputs are there, its outputs come from
where it says, and each of its steps lists all outputs of what it runs.
-/
namespace WorkflowInference

open Entries

theorem Workflow.mem_distinct {o : String} {names : List String} (h : o ∈ names) :
    o ∈ Workflow.distinct names := by
  suffices hall : ∀ acc : List String, o ∈ acc ∨ o ∈ names → o ∈
    names.foldl (fun acc x => if acc.contains x then acc else acc ++ [x]) acc from hall [] (.inr h)
  clear h
  induction names with
  | nil => exact fun acc h => h.resolve_right (by simp)
  | cons n names ih =>
    intro acc h
    refine ih _ ?_
    dsimp only
    split
    · grind
    · grind

namespace Compile

theorem mem_outEntries_addOut {step s : Doc} {key o : String} {names : List String}
    (h : Workflow.addOut step key names = .ok s) (ho : o ∈ names) : .str o ∈ outEntries s := by
  have hstrs : Doc.str o ∈ names.map Doc.str := List.mem_map_of_mem ho
  unfold Workflow.addOut at h
  split at h
  · cases h
    exact hstrs
  · split at h
    · obtain ⟨old, -, rfl⟩ := Result.of_map h
      rw [outEntries, under?_map, get?_put_self]
      exact List.mem_map_of_mem (Workflow.mem_distinct (List.mem_append_right old ho))
    · cases h
      rw [outEntries, under?_map, get?_put_self]
      exact hstrs
  · split at h
    · cases h
    · cases h
      exact hstrs

section Step

variable {key o : String}

theorem StepRun.mem_out (run : StepRun sub c i key d e) (ho : o ∈ outputTexts run.tool.cwl) :
    .str o ∈ outEntries (e.step i) := by
  obtain ⟨outs, sigs, step, houts, -, hclosed, hstep⟩ := addOutputs_spec run.closing
  have hi : i < run.bound.steps.length := Draft.lt_length_of_under? run.bound_in
  have hlast : run.closed.step i = step := by
    rw [hclosed]
    exact Draft.step_setStep _ hi
  have hout : outEntries (e.step i) = outEntries step := by
    rcases guardStep_spec run.guarding with h | ⟨hi', gs, h, hgs⟩
    · rw [h, hlast]
    · have hstep' : e.step i = .map gs := by
        rw [h]
        exact Draft.step_setStep _ hi'
      have hgs : get? gs "out" = under? (run.closed.step i) "out" := hgs "out" (by decide)
      rw [outEntries, hstep', under?_map, hgs, hlast, outEntries]
  rw [hout]
  refine mem_outEntries_addOut hstep ?_
  rwa [← outputTexts_eq houts]

end Step

section Once

variable {set : Setting} {run : OnceRun sub set t r} {o : String}

theorem PlacedRun.mem_out {m : Nat} {p : PartTree} {step : Doc} (h : PlacedRun run)
    (hp : r.tree.subs[m]? = some p) (hstep : r.tree.steps[m]? = some step)
    (ho : o ∈ outputTexts p.part.cwl) : .str o ∈ outEntries step := by
  have hm := (h.steps_spec hstep).1
  obtain ⟨place⟩ := run.placeAt hm
  obtain ⟨es, fs, hes, hfs, hfields⟩ := run.step_fields hm
  cases hstep.symm.trans hfs
  have hcwl : p.part.cwl = place.here.head.tool.cwl := by
    obtain ⟨q, hq, hqcwl⟩ := place.here.head.brought_parts
    cases hp.symm.trans (place.here.subs_eq hq)
    exact hqcwl
  have hmem := place.here.head.mem_out (hcwl ▸ ho)
  rwa [← place.later.steps m (Nat.le_refl m), hes, outEntries,
    under?_map, ← hfields "out" (by decide), ← under?_map,
    ← outEntries] at hmem

theorem OnceRun.outputSource_eq (run : OnceRun sub set t r)
    (houts : under? t.yml "outputs" = some (.map outs))
    (ho : ¬ Namespaces.sep.toList <:+: o.toList) :
    outputSource r.tree.part.cwl o = outputSource t.yml o := by
  obtain ⟨concl⟩ := run.concluded
  have hkept : get? run.last.tree "outputs" = some (.map outs) :=
    ((run.progress.tree "outputs" (by decide)).trans
      ((openWorkflow_opens run.opening).kept "outputs" (by decide))).trans houts
  have hstated := concl.stated_eq
  rw [getD, hkept, Option.getD_some, Doc.map.injEq] at hstated
  have hmade : ∀ e ∈ concl.brought.2, e.1 ≠ .str o := by
    intro e he heq
    obtain ⟨m, tool, x, _, -, -, -, -, hout⟩ := (workflowOutputs_spec concl.bringing).2 e he
    cases (outputOf_spec hout).1.symm.trans heq
    refine ho ?_
    rw [String.toList_append, String.toList_append]
    exact List.infix_append _ _ _
  rw [outputSource, outputSource, concl.part, under?_map, concl.outputs, houts, ← hstated]
  change ((get? (update outs concl.brought.2) o).bind _).bind _ = ((get? outs o).bind _).bind _
  rw [get?_update_ne hmade]

theorem OnceRun.isInput_declared (run : OnceRun sub set t r)
    (hins : under? t.yml "inputs" = some (.map ins)) (ho : has ins o) :
    r.tree.IsInput (.str o) := by
  obtain ⟨concl⟩ := run.concluded
  refine run.isInput (.inl ?_)
  have hstart : (Draft.start t run.start).ownInputs = .map ins := by
    have hkept := (openWorkflow_opens run.opening).kept "inputs" (by decide)
    rw [Draft.ownInputs, getD, show (Draft.start t run.start).tree = run.start.tree from rfl,
      hkept, hins]
    rfl
  have hown := run.progress.own
  rw [hstart, concl.own_eq] at hown
  obtain ⟨es, hes, hkeys⟩ := hown.of_map
  cases hes
  rw [concl.own_eq]
  rw [has_iff_mem, ← keys, ← hkeys, keys, ← has_iff_mem] at ho
  change Except.ok _ = _
  rw [at?_str]
  exact congrArg Except.ok ho

end Once

end Compile

end WorkflowInference
