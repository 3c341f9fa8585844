import WorkflowInference.Format.Resolve
import WorkflowInference.Proofs.Entries

/-!
The format of a file among several that are accepted. Unless there is only one, the extension of the
file decides, and then it does not matter how the formats are listed or spelled: the longest
extension that stands for one of them is taken, and the first of its formats that is accepted.
-/
namespace WorkflowInference.Format

open List Option

variable {listed : String → List String} {file : Entries} {A B : List Doc} {s c : String}
  {ps : List String}

def denoted (accepted : List Doc) : List String := (known accepted).map (·.1)

theorem mem_known (h : (c, s) ∈ known A) : .str s ∈ A ∧ curie? s = some c := by
  obtain ⟨d, hd, hs⟩ := mem_filterMap.mp h
  obtain ⟨t, ht, hc⟩ := bind_eq_some_iff.mp hs
  obtain ⟨_, hcurie, heq⟩ := map_eq_some_iff.mp hc
  cases heq
  cases d <;> cases ht
  exact ⟨hd, hcurie⟩

theorem mem_of_resolveBy (h : resolveBy listed file A = some s) : ∃ c, (c, s) ∈ known A := by
  rw [resolveBy] at h
  split at h
  · cases h
  · rename_i heq
    cases h
    exact ⟨_, heq ▸ mem_cons_self⟩
  · obtain ⟨_, -, h⟩ := exists_of_findSome?_eq_some h
    obtain ⟨c, -, h⟩ := exists_of_findSome?_eq_some h
    exact ⟨c, mem_reverse.mp (Keyed.mem_of_lookup h)⟩

theorem lookup_known (c : String) :
    ((known A).reverse.lookup c).bind curie? = Option.guard (· ∈ denoted A) c := by
  cases hs : (known A).reverse.lookup c with
  | none =>
    refine (guard_eq_none_iff.mpr ?_).symm
    rw [decide_eq_false_iff_not]
    intro hc
    obtain ⟨p, hp, rfl⟩ := mem_map.mp hc
    simpa using lookup_eq_none_iff.mp hs p (mem_reverse.mpr hp)
  | some s =>
    have hmem := mem_reverse.mp (Keyed.mem_of_lookup hs)
    have hc : c ∈ denoted A := mem_map_of_mem (f := (·.1)) hmem
    simp [(mem_known hmem).2, Option.guard, hc]

theorem findSome?_bind {α β γ : Type} {f : α → Option β} {g : β → Option γ}
    (h : ∀ a b, f a = some b → (g b).isSome) (as : List α) :
    (as.findSome? f).bind g = as.findSome? fun a => (f a).bind g := by
  induction as with
  | nil => rfl
  | cons a as ih =>
    rw [findSome?_cons, findSome?_cons]
    cases hb : f a with
    | none => exact ih
    | some b =>
      obtain ⟨c, hc⟩ := isSome_iff_exists.mp (h a b hb)
      simp [hc]

/-- Unless only one format is accepted, the first accepted one of the first extension that has one
is chosen. -/
theorem curie_resolveBy (h : (known A).length ≠ 1) : (resolveBy listed file A).bind curie? =
    (extensions file).findSome? fun e => (listed e).find? (· ∈ denoted A) := by
  have hcurie : ∀ c s, (known A).reverse.lookup c = some s → (curie? s).isSome := by
    intro c s hs
    rw [(mem_known (mem_reverse.mp (Keyed.mem_of_lookup hs))).2]
    rfl
  have hall : resolveBy listed file A =
      (extensions file).findSome? fun e => (listed e).findSome? fun c =>
      (known A).reverse.lookup c := by
    rw [resolveBy]
    split
    · rename_i hnil
      refine (findSome?_eq_none_iff.mpr fun e _ => ?_).symm
      simp [hnil]
    · rename_i hone
      exact absurd (by rw [hone]; rfl) h
    · rfl
  rw [hall, findSome?_bind fun e s hs => ?_]
  · simp only [findSome?_bind hcurie, lookup_known, findSome?_guard]
  · obtain ⟨c, -, hc⟩ := exists_of_findSome?_eq_some hs
    exact hcurie c s hc

theorem length_of_mem_tails (p : String) (h : e ∈ tails ps) :
    e.length + p.length < (Text.join "." (p :: ps)).length := by
  induction ps generalizing p with
  | nil => cases h
  | cons q qs ih =>
    have hjoin : (Text.join "." (p :: q :: qs)).length = p.length + 1 +
        (Text.join "." (q :: qs)).length := by
      rw [Text.join, String.intercalate_cons_cons, String.length_append, String.length_append]
      rfl
    rcases mem_append.mp h with h | h
    · split at h
      · cases h
      · rw [mem_singleton.mp h]
        omega
    · have hlt := ih q h
      omega

theorem tails_pairwise (ps : List String) :
    (tails ps).Pairwise fun e e' => e'.length < e.length := by
  induction ps with
  | nil => exact .nil
  | cons p ps ih =>
    rw [tails]
    split
    · exact ih
    · exact .cons (fun e he =>
        Nat.lt_of_le_of_lt (Nat.le_add_right _ _) (length_of_mem_tails p he)) ih

theorem extensions_pairwise (file : Entries) :
    (extensions file).Pairwise fun e e' => e'.length < e.length := by
  unfold extensions
  split
  · exact tails_pairwise _
  · exact .nil

def Decides (listed : String → List String) (file : Entries) (accepted : List Doc) (e c : String) :
    Prop :=
  e ∈ extensions file ∧ (listed e).find? (· ∈ denoted accepted) = some c ∧
    ∀ e' ∈ extensions file, e.length < e'.length → ∀ c ∈ listed e', c ∉ denoted accepted

theorem decides_of_find
    (h : ((extensions file).findSome? fun e => (listed e).find? (· ∈ denoted A)) = some c) :
    ∃ e, Decides listed file A e c := by
  obtain ⟨before, e, after, hsplit, he, hbefore⟩ := findSome?_eq_some_iff.mp h
  have hpairs := extensions_pairwise file
  refine ⟨e, by simp [hsplit], he, fun e' he' hlt => ?_⟩
  rw [hsplit] at he' hpairs
  have hmem : e' ∈ before := by
    rcases mem_append.mp he' with hmem | hmem
    · exact hmem
    · rcases mem_cons.mp hmem with rfl | hmem
      · exact absurd hlt (Nat.lt_irrefl _)
      · have hle := rel_of_pairwise_cons (pairwise_append.mp hpairs).2.1 hmem
        omega
  simpa using hbefore e' hmem

/-- Two lists that name the same formats, and either both name just one or neither does, lead to the
same format; it is spelled as in the list, and unless the list names just one it is the first
accepted format of the longest extension that has any. -/
theorem resolved_by_set (listed : String → List String) (file : Entries)
    (hset : ∀ c, c ∈ denoted A ↔ c ∈ denoted B)
    (hone : (known A).length = 1 ↔ (known B).length = 1) :
    (resolveBy listed file A).bind curie? = (resolveBy listed file B).bind curie? ∧
      (∀ s, resolveBy listed file A = some s → .str s ∈ A ∧ (curie? s).isSome = true) ∧
      ((known A).length ≠ 1 →
          (∀ c, (resolveBy listed file A).bind curie? = some c → ∃ e, Decides listed file A e c) ∧
        (resolveBy listed file A = none →
          ∀ e ∈ extensions file, ∀ c ∈ listed e, c ∉ denoted A)) := by
  refine ⟨?_, fun s hs => ?_, fun hmany =>
    ⟨fun c hc => decides_of_find (curie_resolveBy hmany ▸ hc), fun hnone => ?_⟩⟩
  · by_cases hlen : (known A).length = 1
    · obtain ⟨⟨c, s⟩, hA⟩ := length_eq_one_iff.mp hlen
      obtain ⟨⟨c', s'⟩, hB⟩ := length_eq_one_iff.mp (hone.mp hlen)
      have hcc : c = c' := by simpa [denoted, hA, hB] using hset c
      rw [resolveBy, resolveBy, hA, hB, Option.bind_some, Option.bind_some,
        (mem_known (hA ▸ mem_singleton_self _)).2,
        (mem_known (hB ▸ mem_singleton_self _)).2, hcc]
    · rw [curie_resolveBy hlen, curie_resolveBy (mt hone.mpr hlen)]
      simp only [hset]
  · obtain ⟨c, hc⟩ := mem_of_resolveBy hs
    obtain ⟨hmem, hcurie⟩ := mem_known hc
    exact ⟨hmem, by rw [hcurie]; rfl⟩
  · have hfind : (resolveBy listed file A).bind curie? = _ := curie_resolveBy hmany
    rw [hnone] at hfind
    simpa using hfind.symm

namespace Sample

def bed : Entries := [(.str "location", .str "data/a.BED.gz")]

def formats : List Doc := [.str "edam:format_3003", .str "edam:format_1476"]

def respelled : List Doc :=
  [.str "http://edamontology.org/format_1476", .str "edam:format_3003", .str "edam:format_3003"]

end Sample

open Sample in
theorem resolved_by_set_respelled :
    (resolve bed respelled).bind curie? = some "edam:format_3003" ∧
      (resolve bed formats).bind curie? = (resolve bed respelled).bind curie? ∧
      .str "edam:format_3003" ∈ formats := by
  have hfirst : denoted formats = ["edam:format_3003", "edam:format_1476"] := by decide +kernel
  have hsecond : denoted respelled = ["edam:format_1476", "edam:format_3003",
      "edam:format_3003"] := by decide +kernel
  have hset : ∀ c, c ∈ denoted formats ↔ c ∈ denoted respelled := by
    intro c
    rw [hfirst, hsecond]
    simp [or_comm]
  have hfound : resolveBy formatsOf bed formats = some "edam:format_3003" := by decide +kernel
  have hboth := resolved_by_set formatsOf bed hset (by decide +kernel)
  refine ⟨hboth.1.symm.trans ?_, hboth.1, (hboth.2.1 _ hfound).1⟩
  rw [hfound]
  decide

end WorkflowInference.Format
