import WorkflowInference.Proofs.Document
import WorkflowInference.Proofs.Logged
import Mathlib.Data.List.Perm.Subperm
import Mathlib.Logic.Relation

/-!
Lookups in the mappings of inputs and outputs. A name stands for names further inside, which may
stand for others again. A lookup has a result exactly when every way from its names ends: one that
ends meets no name twice, so the number of names bounds its length.
-/
namespace WorkflowInference.Workflow

open Relation

section Ways

variable {next : String → Option (List String)} {n : Nat} {a : String}

def follow (next : String → Option (List String)) : Nat → String → Result (List String)
  | 0, _ => .error .endless
  | n + 1, a =>
    match next a with
    | some bs => do return (← bs.mapM (follow next n)).flatten
    | none => return [a]

def Leads (next : String → Option (List String)) (b a : String) : Prop :=
  ∃ bs, next a = some bs ∧ b ∈ bs

def Terminates (next : String → Option (List String)) (a : String) : Prop := Acc (Leads next) a

theorem follow_cases (next : String → Option (List String)) (n : Nat) (a : String) :
    follow next n a = .error .endless ∨ ∃ es, follow next n a = .ok es := by
  induction n generalizing a with
  | zero => exact .inl rfl
  | succ n ih =>
    unfold follow
    cases next a with
    | none => exact .inr ⟨_, rfl⟩
    | some bs =>
      rcases Result.mapM_cases ih bs with hend | ⟨ess, hess⟩
      · exact .inl (by simp only [hend]; rfl)
      · exact .inr ⟨ess.flatten, by simp only [hess]; rfl⟩

theorem terminates_of_follow (h : follow next n a = .ok es) : Terminates next a := by
  induction n generalizing a es with
  | zero => cases h
  | succ n ih =>
    unfold follow at h
    refine ⟨a, ?_⟩
    rintro b ⟨bs, hbs, hb⟩
    rw [hbs] at h
    obtain ⟨ess, hess, -⟩ := Result.of_map h
    obtain ⟨fs, -, hfs⟩ := Result.mem_mapM hess hb
    exact ih hfs

theorem Terminates.not_transGen (h : Terminates next a) : ¬ TransGen (Leads next) a a := by
  have hacc : Acc (TransGen (Leads next)) a := h.transGen
  clear h
  induction hacc with
  | intro a _ ih => exact fun haa => ih a haa haa

/-- The names that were passed on the way to `a` are different, so there are no more of them than
keys. -/
theorem Terminates.follow {keys passed : List String} (hkeys : ∀ b bs, next b = some bs → b ∈ keys)
    (h : Terminates next a) (hnodup : passed.Nodup) (hsub : passed ⊆ keys)
    (hpassed : ∀ u ∈ passed, TransGen (Leads next) a u) (hlen : keys.length < passed.length + n) :
    ∃ es, Workflow.follow next n a = .ok es := by
  induction n generalizing passed a with
  | zero => exact absurd (hnodup.subperm hsub).length_le (by omega)
  | succ n ih =>
    unfold Workflow.follow
    cases hnext : next a with
    | none => exact ⟨_, rfl⟩
    | some bs =>
      have hnew : a ∉ passed := fun ha => h.not_transGen (hpassed a ha)
      have hinner : ∀ b ∈ bs, ∃ es, Workflow.follow next n b = .ok es := by
        intro b hb
        have hlead : Leads next b a := ⟨bs, hnext, hb⟩
        refine ih (h.inv hlead) (List.nodup_cons.mpr ⟨hnew, hnodup⟩)
          (List.cons_subset.mpr ⟨hkeys a bs hnext, hsub⟩) ?_ (by rw [List.length_cons]; omega)
        intro u hu
        rcases List.mem_cons.mp hu with rfl | hu
        · exact .single hlead
        · exact .head hlead (hpassed u hu)
      obtain ⟨ess, hess, -⟩ := Result.exists_mapM (P := fun _ => True) fun b hb => by
        simpa using hinner b hb
      exact ⟨ess.flatten, by simp only [hess]; rfl⟩

theorem follow_eq_endless_iff {keys : List String} (hkeys : ∀ b bs, next b = some bs → b ∈ keys)
    (hlen : keys.length < n) : follow next n a = .error .endless ↔ ¬ Terminates next a := by
  constructor
  · intro h hterm
    obtain ⟨es, hes⟩ := hterm.follow hkeys .nil (List.nil_subset keys) (List.forall_mem_nil _)
      (by simpa using hlen)
    rw [h] at hes
    cases hes
  · intro h
    rcases follow_cases next n a with hend | ⟨es, hes⟩
    · exact hend
    · exact absurd (terminates_of_follow hes) h

end Ways

namespace InputMapping

def next (m : InputMapping) (a : String) : Option (List String) :=
  (m.get? (.str a)).map (List.map (reroot a))

theorem innermost_eq (m : InputMapping) (n : Nat) (a : String) :
    innermost m n a = follow m.next n a := by
  induction n generalizing a with
  | zero => rfl
  | succ n ih =>
    unfold innermost follow
    cases hget : m.get? (.str a) with
    | none =>
      have hnext : m.next a = none := by rw [next, hget, Option.map_none]
      rw [hnext]
    | some inner =>
      have hnext : m.next a = some (inner.map (reroot a)) := by rw [next, hget, Option.map_some]
      have hinner : inner.mapM (fun s => innermost m n (reroot a s)) = (inner.map (reroot a)).mapM
          (follow m.next n) := by
        rw [List.mapM_map]
        exact Result.mapM_congr fun s _ => ih (reroot a s)
      simp only [hinner, hnext]

theorem mem_of_next {m : InputMapping} (h : m.next a = some bs) : a ∈ m.map fun e => e.1.text := by
  obtain ⟨inner, hget, -⟩ := Option.map_eq_some_iff.mp h
  clear h
  induction m with
  | nil => cases hget
  | cons e m ih =>
    rw [get?] at hget
    split at hget
    · rename_i hkey
      rw [Doc.beq_str_iff] at hkey
      simp [hkey, Doc.text]
    · exact List.mem_cons_of_mem _ (ih hget)

theorem ends_cases (m : InputMapping) (names : List String) :
    m.ends names = .error .endless ∨ ∃ es, m.ends names = .ok es := by
  unfold ends
  have hcases : ∀ a, innermost m (m.length + 1) a = .error .endless ∨
      ∃ es, innermost m (m.length + 1) a = .ok es :=
    fun a => innermost_eq m _ a ▸ follow_cases m.next _ a
  rcases Result.mapM_cases hcases names with hend | ⟨ess, hess⟩
  · exact .inl (by rw [hend]; rfl)
  · exact .inr ⟨ess.flatten, by rw [hess]; rfl⟩

/-- The ends of inputs are found unless a way from one of them goes on for ever. -/
theorem ends_eq_endless_iff (m : InputMapping) (names : List String) :
    m.ends names = .error .endless ↔ ∃ a ∈ names, ¬ Terminates m.next a := by
  have hiff : ∀ a, innermost m (m.length + 1) a = .error .endless ↔ ¬ Terminates m.next a := by
    intro a
    rw [innermost_eq]
    exact follow_eq_endless_iff (fun _ _ => mem_of_next) (by simp)
  constructor
  · intro h
    by_contra hall
    push Not at hall
    have htotal : ∀ a ∈ names, ∃ es, innermost m (m.length + 1) a = .ok es := by
      intro a ha
      rcases follow_cases m.next (m.length + 1) a with hend | ⟨es, hes⟩
      · rw [← innermost_eq, hiff] at hend
        exact absurd (hall a ha) hend
      · exact ⟨es, by rw [innermost_eq, hes]⟩
    obtain ⟨ess, hess, -⟩ := Result.exists_mapM (P := fun _ => True) fun a ha => by
      simpa using htotal a ha
    rw [ends, hess] at h
    cases h
  · rintro ⟨a, ha, hterm⟩
    rcases ends_cases m names with hend | ⟨es, hes⟩
    · exact hend
    · obtain ⟨ess, hess, -⟩ := Result.of_map hes
      obtain ⟨fs, -, hfs⟩ := Result.mem_mapM hess ha
      rw [(hiff a).mpr hterm] at hfs
      cases hfs

end InputMapping

namespace OutputMapping

def next (m : OutputMapping) (a : String) : Option (List String) :=
  (m.lookup a).map fun s => [reroot a s]

theorem origin_eq (m : OutputMapping) (n : Nat) (a : String) :
    follow (next m) n a = (origin m n a).map fun s => [s] := by
  induction n generalizing a with
  | zero => rfl
  | succ n ih =>
    unfold origin follow
    cases hget : m.lookup a with
    | none =>
      have hnext : next m a = none := by rw [next, hget, Option.map_none]
      rw [hnext]
      rfl
    | some inner =>
      have hnext : next m a = some [reroot a inner] := by rw [next, hget, Option.map_some]
      rw [hnext]
      simp only [List.mapM_cons, List.mapM_nil, ih]
      cases origin m n (reroot a inner) <;> rfl

theorem source_cases (m : OutputMapping) (name : String) :
    source m name = .error .endless ∨ ∃ s, source m name = .ok s := by
  have h := follow_cases (next m) (m.length + 1) name
  rw [origin_eq] at h
  unfold source
  cases hsource : origin m (m.length + 1) name with
  | error e =>
    rw [hsource] at h
    rcases h with h | ⟨_, h⟩
    · cases h
      exact .inl rfl
    · cases h
  | ok s => exact .inr ⟨s, rfl⟩

/-- The origin of an output is found unless the way from it goes on for ever. -/
theorem source_eq_endless_iff (m : OutputMapping) (name : String) :
    source m name = .error .endless ↔ ¬ Terminates (next m) name := by
  have hkeys : ∀ b bs, next m b = some bs → b ∈ m.map Prod.fst := by
    intro b bs h
    obtain ⟨s, hs, -⟩ := Option.map_eq_some_iff.mp h
    exact List.mem_map_of_mem (Keyed.mem_of_lookup hs)
  have hiff := follow_eq_endless_iff (a := name) hkeys (n := m.length + 1) (by simp)
  rw [origin_eq] at hiff
  rw [← hiff, source]
  cases origin m (m.length + 1) name <;> simp [Except.map]

end OutputMapping

end WorkflowInference.Workflow
