import WorkflowInference.Proofs.Splitting

/-!
Paths as lists of parts. A path is given by its root and its parts; joining paths puts their parts
one after the other, and going up takes parts away again only where there are pairs of dots.
-/
namespace WorkflowInference

open List

variable {acc ps ds : List String}

namespace Text

theorem parted_singleton : Parted [c] us ↔ us ≠ [] ∧ ∀ u ∈ us, c ∉ u := by
  induction us with
  | nil => simp [Parted]
  | cons u us ih =>
    cases us with
    | nil => simp [Parted, singleton_infix_iff]
    | cons v us =>
      rw [Parted, apart_singleton, ih]
      simp

theorem splitOn_char (hsep : sep.toList = [c]) :
    splitOn sep s = ps ↔ ps ≠ [] ∧ s = join sep ps ∧ ∀ x ∈ ps, c ∉ x.toList := by
  rw [splitOn_eq_iff (by rintro rfl; cases hsep), hsep, parted_singleton]
  simp [and_left_comm]

theorem toList_replace_char (hsep : sep.toList = [c]) (s r : String) :
    (replace s sep r).toList = s.toList.flatMap fun x => if x = c then r.toList else [x] := by
  obtain ⟨-, hs, hps⟩ := (splitOn_char hsep).mp (rfl : splitOn sep s = _)
  change (join r (splitOn sep s)).toList = _
  generalize splitOn sep s = ps at hs hps
  subst hs
  induction ps with
  | nil => simp [join]
  | cons p ps ih =>
    obtain ⟨hp, hps⟩ := forall_mem_cons.mp hps
    have hsame : p.toList.flatMap (fun x => if x = c then r.toList else [x]) = p.toList := by
      refine (flatMap_congr fun x hx => if_neg ?_).trans (flatMap_singleton' _)
      rintro rfl
      exact hp hx
    by_cases hnil : ps = []
    · simp [hnil, join, hsame]
    · rw [join_cons hnil, join_cons hnil]
      simp [hsame, hsep, ih hps]

theorem splitOn_slash : splitOn "/" s = ps ↔ ps ≠ [] ∧ s = join "/" ps ∧ ∀ x ∈ ps, '/' ∉ x.toList :=
  splitOn_char rfl

theorem splitOn_slash_append (a b : String) :
    splitOn "/" (a ++ "/" ++ b) = splitOn "/" a ++ splitOn "/" b := by
  obtain ⟨hane, ha, has⟩ := splitOn_slash.mp (rfl : splitOn "/" a = _)
  obtain ⟨hbne, hb, hbs⟩ := splitOn_slash.mp (rfl : splitOn "/" b = _)
  refine splitOn_slash.mpr ⟨by simp [hane], ?_, fun x hx => (mem_append.mp hx).elim (has x) (hbs x)⟩
  rw [join, String.intercalate_append_of_ne_nil hane hbne, ← join, ← join, ← ha, ← hb]

variable {a x y : String}

theorem splitOn_slash_head (h : splitOn "/" a = x :: ps) (hy : '/' ∉ y.toList) :
    splitOn "/" (y ++ a) = (y ++ x) :: ps := by
  obtain ⟨-, rfl, hps⟩ := splitOn_slash.mp h
  obtain ⟨hx, hps⟩ := forall_mem_cons.mp hps
  refine splitOn_slash.mpr
    ⟨by simp, by rw [join, join, String.intercalate_cons_append], forall_mem_cons.mpr ⟨?_, hps⟩⟩
  simp [hx, hy]

theorem splitOn_slash_last (h : splitOn "/" a = ps ++ [x]) (hy : '/' ∉ y.toList) :
    splitOn "/" (a ++ y) = ps ++ [x ++ y] := by
  obtain ⟨-, rfl, hps⟩ := splitOn_slash.mp h
  obtain ⟨hps, hx⟩ := forall_mem_append.mp hps
  refine splitOn_slash.mpr ⟨by simp, ?_, forall_mem_append.mpr ⟨hps, ?_⟩⟩
  · by_cases hnil : ps = []
    · simp [hnil, join]
    · rw [join, join, String.intercalate_append_of_ne_nil hnil (by simp),
        String.intercalate_append_of_ne_nil hnil (by simp)]
      simp [String.append_assoc]
  · have hx := hx x mem_cons_self
    simp [hx, hy]

end Text

namespace Path

def IsPart (s : String) : Prop := '/' ∉ s.toList ∧ s ≠ "" ∧ s ≠ "."

variable {s r : String}

theorem isPart_of_mem (h : x ∈ parts p) : IsPart x := by
  obtain ⟨hx, hplain⟩ := mem_filter.mp h
  exact ⟨(Text.splitOn_slash.mp rfl).2.2 x hx, by simpa using hplain⟩

theorem parts_append (a b : String) : parts (a ++ "/" ++ b) = parts a ++ parts b := by
  rw [parts, Text.splitOn_slash_append, filter_append]
  rfl

theorem splitOn_of_not_mem (h : '/' ∉ s.toList) : Text.splitOn "/" s = [s] :=
  Text.splitOn_slash.mpr ⟨by simp, by simp [Text.join], by simpa using h⟩

theorem parts_of_isPart (h : IsPart s) : parts s = [s] := by
  rw [parts, splitOn_of_not_mem h.1]
  simp [h.2]

theorem parts_empty : parts "" = [] := by
  rw [parts, splitOn_of_not_mem (by simp)]
  rfl

theorem parts_join (h : ∀ x ∈ ps, IsPart x) : parts (Text.join "/" ps) = ps := by
  cases ps with
  | nil => exact parts_empty
  | cons x ps =>
    rw [parts, Text.splitOn_slash.mpr ⟨by simp, rfl, fun y hy => (h y hy).1⟩]
    exact filter_eq_self.mpr fun y hy => by simpa using (h y hy).2

def IsRoot (r : String) : Prop := r = "" ∨ r = "/" ∨ r = "//"

theorem isRoot_root (p : String) : IsRoot (root p) := by
  unfold root IsRoot
  split
  · simp
  · split
    · simp
    · split <;> simp

theorem isAbsolute_iff : isAbsolute p ↔ ∃ cs, p.toList = '/' :: cs := by
  rw [isAbsolute, Text.startsWith_iff]
  exact exists_congr fun cs => eq_comm

theorem parts_root_append (hr : IsRoot r) (s : String) : parts (r ++ s) = parts s := by
  have hslash : ∀ s, parts ("/" ++ s) = parts s := by
    intro s
    have happ := parts_append "" s
    rw [parts_empty, nil_append] at happ
    exact happ
  rcases hr with rfl | rfl | rfl
  · rw [String.empty_append]
  · exact hslash s
  · rw [show ("//" : String) = "/" ++ "/" from rfl, String.append_assoc, hslash, hslash]

theorem root_append (hr : IsRoot r) (hs : isAbsolute s = false) : root (r ++ s) = r := by
  rw [← Bool.not_eq_true, isAbsolute_iff] at hs
  cases hcs : s.toList with
  | nil => rcases hr with rfl | rfl | rfl <;> simp [root, Text.startsWith, Text.after?, hcs]
  | cons c cs =>
    have hc : '/' ≠ c := by
      rintro rfl
      exact hs ⟨cs, hcs⟩
    rcases hr with rfl | rfl | rfl <;> simp [root, Text.startsWith, Text.after?, hcs, hc]

theorem isAbsolute_join (h : ∀ x ∈ ps, IsPart x) : isAbsolute (Text.join "/" ps) = false := by
  rw [← Bool.not_eq_true, isAbsolute_iff]
  rintro ⟨cs, hcs⟩
  cases ps with
  | nil => cases hcs
  | cons x ps =>
    -- nothing would stand before the first slash
    have hsplit := Text.splitOn_slash.mpr ⟨by simp, rfl, fun y hy => (h y hy).1⟩
    have heq : Text.join "/" (x :: ps) = "" ++ "/" ++ String.ofList cs := by
      rw [← String.toList_inj, hcs]
      simp
    rw [heq, Text.splitOn_slash_append, splitOn_of_not_mem (by simp)] at hsplit
    exact (h x mem_cons_self).2.1 (head_eq_of_cons_eq hsplit).symm

section Parts

variable (hr : IsRoot r) (h : ∀ x ∈ ps, IsPart x)

include hr h

theorem parts_ofParts : parts (ofParts r ps) = ps := by
  unfold ofParts
  split
  · rename_i hnone
    simp only [Bool.and_eq_true, List.isEmpty_iff] at hnone
    rw [hnone.2]
    rfl
  · rw [parts_root_append hr, parts_join h]

theorem root_ofParts : root (ofParts r ps) = r := by
  unfold ofParts
  split
  · rename_i hnone
    simp only [Bool.and_eq_true, decide_eq_true_eq] at hnone
    rw [hnone.1]
    rfl
  · exact root_append hr (isAbsolute_join h)

end Parts

theorem isPart_append (hp : ∀ x ∈ ps, IsPart x) (hq : ∀ x ∈ qs, IsPart x) :
    ∀ x ∈ ps ++ qs, IsPart x :=
  fun x hx => (mem_append.mp hx).elim (hp x) (hq x)

def below (dir : String) (xs : List String) : String := ofParts (root dir) (parts dir ++ xs)

section Below

variable {p q x : String} {xs ys : List String}

theorem isPart_parts (p : String) (h : ∀ x ∈ xs, IsPart x) : ∀ x ∈ parts p ++ xs, IsPart x :=
  isPart_append (fun _ hx => isPart_of_mem hx) h

theorem parts_below (h : ∀ x ∈ xs, IsPart x) : parts (below p xs) = parts p ++ xs :=
  parts_ofParts (isRoot_root p) (isPart_parts p h)

theorem root_below (h : ∀ x ∈ xs, IsPart x) : root (below p xs) = root p :=
  root_ofParts (isRoot_root p) (isPart_parts p h)

theorem below_inj (hx : ∀ x ∈ xs, IsPart x) (hy : ∀ y ∈ ys, IsPart y)
    (h : below p xs = below p ys) : xs = ys := by
  have hparts := congrArg parts h
  rw [parts_below hx, parts_below hy] at hparts
  exact append_cancel_left hparts

theorem join_eq (h : isAbsolute q = false) : join p q = below p (parts q) := by
  rw [join, h]
  rfl

theorem below_below (h : ∀ x ∈ xs, IsPart x) (ys : List String) :
    below (below p xs) ys = below p (xs ++ ys) := by
  rw [below, root_below h, parts_below h, append_assoc]
  rfl

theorem parent_below (h : ∀ y ∈ xs, IsPart y) (hx : IsPart x) :
    parent (below p (xs ++ [x])) = below p xs := by
  have hall : ∀ y ∈ xs ++ [x], IsPart y := isPart_append h (by simpa using hx)
  rw [parent, root_below hall, parts_below hall, ← append_assoc, dropLast_concat]
  rfl

end Below

variable {p x : String} {xs : List String}

theorem IsPart.relative (h : IsPart x) : isAbsolute x = false := by
  rw [← Bool.not_eq_true, isAbsolute_iff]
  rintro ⟨cs, hcs⟩
  exact h.1 (by rw [hcs]; exact mem_cons_self)

theorem collapse_append (h : ".." ∉ xs) : collapse (ds ++ xs) acc = collapse ds acc ++ xs := by
  have hxs : ∀ acc, collapse xs acc = acc.reverse ++ xs := by
    induction xs with
    | nil => simp [collapse]
    | cons x xs ih =>
      intro acc
      simp only [mem_cons, not_or] at h
      rw [collapse, ih h.2]
      · simp
      · intro _ _ _ hx
        exact h.1 hx.symm
      · intro _ hx
        exact h.1 hx.symm
  fun_induction collapse ds acc with
  | case1 acc => exact hxs acc
  | case2 ps _ acc ih => rw [cons_append, collapse]; exact ih
  | case3 ps ih => rw [cons_append, collapse]; exact ih
  | case4 acc p ps hcons hnil ih =>
    rw [cons_append, collapse]
    · exact ih
    · exact hcons
    · exact hnil

theorem mem_collapse (h : x ∈ collapse ds acc) : x ∈ ds ∨ x ∈ acc := by
  fun_induction collapse ds acc with
  | case1 acc => exact .inr (mem_reverse.mp h)
  | case2 ps _ acc ih => exact (ih h).imp (mem_cons_of_mem _) (mem_cons_of_mem _)
  | case3 ps ih => exact (ih h).imp_left (mem_cons_of_mem _)
  | case4 acc p ps _ _ ih =>
    rcases ih h with h | h
    · exact .inl (mem_cons_of_mem _ h)
    · rcases mem_cons.mp h with rfl | h
      · exact .inl mem_cons_self
      · exact .inr h

theorem isAbsolute_iff_root : isAbsolute p ↔ root p ≠ "" := by
  cases hcs : p.toList with
  | nil => simp [isAbsolute, root, Text.startsWith, Text.after?, hcs]
  | cons c cs =>
    by_cases hc : '/' = c
    · simp only [isAbsolute, root, Text.startsWith, Text.after?, hcs, hc, String.reduceToList,
        if_true, Option.isSome_some, true_iff]
      split
      · simp
      · split <;> simp
    · simp [isAbsolute, root, Text.startsWith, Text.after?, hcs, hc]

theorem absolute_below (cwd : String) (h : ∀ x ∈ xs, IsPart x) :
    absolute cwd (below p xs) = below (absolute cwd p) xs := by
  cases habs : isAbsolute p with
  | true =>
    have hbelow : isAbsolute (below p xs) := by
      rw [isAbsolute_iff_root, root_below h]
      exact isAbsolute_iff_root.mp habs
    have hplain : ∀ q, isAbsolute q → absolute cwd q = below q [] := by
      intro q hq
      rw [absolute, join, hq, if_pos rfl, plain, below, append_nil]
    rw [hplain _ hbelow, hplain _ habs, below_below h, below_below (by simp),
      append_nil, nil_append]
  | false =>
    have hbelow : isAbsolute (below p xs) = false := by
      rw [← Bool.not_eq_true, isAbsolute_iff_root, root_below h, ← isAbsolute_iff_root, habs]
      simp
    rw [absolute, absolute, join_eq hbelow, join_eq habs, parts_below h, below_below fun _ hx =>
      isPart_of_mem hx]

theorem resolve_below (cwd : String) (h : ∀ x ∈ xs, IsPart x) (hup : ".." ∉ xs) :
    resolve cwd (below p xs) = below (resolve cwd p) xs := by
  have hkept : ∀ x ∈ collapse (parts (absolute cwd p)) [], IsPart x := by
    intro x hx
    exact isPart_of_mem ((mem_collapse hx).resolve_right (by simp))
  have hroot := isRoot_root (absolute cwd p)
  rw [resolve, absolute_below cwd h, root_below h, parts_below h, collapse_append hup, below,
    resolve, root_ofParts hroot hkept, parts_ofParts hroot hkept]

section Stems

variable {p x ext : String}

theorem slash_not_mem_name : '/' ∉ (name p).toList := by
  rw [name, getLastD_eq_getLast?]
  cases hlast : (parts p).getLast? with
  | none => simp
  | some y => exact (isPart_of_mem (mem_of_getLast? hlast)).1

theorem slash_not_mem_stem (p : String) : '/' ∉ (stem p).toList := by
  intro h
  refine slash_not_mem_name (p := p) ?_
  unfold stem splitName at h
  dsimp only at h
  split at h
  · rw [String.toList_ofList] at h
    exact mem_of_mem_take h
  · exact h

theorem isPart_append_ext (h : '/' ∉ x.toList) (hslash : '/' ∉ ext.toList)
    (hlong : 1 < ext.toList.length) : IsPart (x ++ ext) := by
  have hlen : 1 < (x ++ ext).toList.length := by
    rw [String.toList_append, length_append]
    omega
  refine ⟨?_, ?_, ?_⟩
  · rw [String.toList_append, mem_append, not_or]
    exact ⟨h, hslash⟩
  · intro hnil
    rw [hnil] at hlen
    simp at hlen
  · intro hdot
    rw [hdot] at hlen
    simp at hlen

theorem stem_append_cwl (hslash : '/' ∉ x.toList) (hne : x ≠ "") : stem (x ++ ".cwl") = x := by
  have hlen : 0 < x.toList.length := by
    refine length_pos_iff.mpr fun hnil => hne ?_
    rw [← String.toList_inj, hnil]
    rfl
  have hpart : IsPart (x ++ ".cwl") := isPart_append_ext hslash (by decide) (by decide)
  have hname : name (x ++ ".cwl") = x ++ ".cwl" := by
    rw [name, parts_of_isPart hpart]
    rfl
  have hchars : (x ++ ".cwl").toList = x.toList ++ ['.', 'c', 'w', 'l'] := by
    rw [String.toList_append]
    rfl
  have hext : (x ++ ".cwl").toList.reverse.takeWhile (· != '.') = ['l', 'w', 'c'] := by
    rw [hchars, reverse_append]
    simp
  rw [stem, hname, splitName, hext, hchars]
  simp only [length_append, length_cons, length_nil]
  rw [if_pos]
  · simp
  · simp
    omega

theorem stem_ne_empty (h : name p ≠ "") : stem p ≠ "" := by
  unfold stem splitName
  dsimp only
  split
  · rename_i hcut
    simp only [Bool.and_eq_true, decide_eq_true_eq] at hcut
    intro hnil
    have hlen := congrArg (fun s => s.toList.length) hnil
    simp only [String.toList_ofList, length_take, String.toList_empty, length_nil] at hlen
    omega
  · exact h

theorem name_ne_empty (h : Text.endsWith p ext) (hslash : '/' ∉ ext.toList)
    (hlong : 1 < ext.toList.length) : name p ≠ "" := by
  obtain ⟨pre, hpre⟩ := Text.endsWith_iff.mp h
  have hp : p = String.ofList pre ++ ext := by
    rw [← String.toList_inj, ← hpre]
    simp
  obtain ⟨xs, x, hxs⟩ := eq_nil_or_concat (Text.splitOn "/" (String.ofList pre)) |>.resolve_left
    (Text.splitOn_slash.mp rfl).1
  have hsplit := Text.splitOn_slash_last (by simpa using hxs) hslash
  rw [← hp] at hsplit
  have hne : ∀ s : String, s.toList.length ≤ 1 → x ++ ext ≠ s := by
    rintro s hs rfl
    rw [String.toList_append, length_append] at hs
    omega
  have hkept : [x ++ ext].filter (fun s => s != "" && s != ".") = [x ++ ext] := by
    simp [hne "" (by simp), hne "." (by simp)]
  rw [name, parts, hsplit, filter_append, hkept, getLastD_concat]
  exact hne "" (by simp)

end Stems

section Steps

variable {stem key : String}

theorem parts_stepName (h : '/' ∉ stem.toList) (i : Nat) (key : String) :
    ∃ k rest, parts (stepName stem i key) = stepName stem i k :: rest ∧
      ∀ x ∈ rest, x ∈ parts key := by
  obtain ⟨k, ks, hks⟩ :=
    exists_cons_of_ne_nil (Text.splitOn_slash.mp (rfl : Text.splitOn "/" key = _)).1
  have hpre : '/' ∉ (stepName stem i "").toList := by
    have hdigits : '/' ∉ Nat.toDigits 10 (i + 1) := by
      intro hmem
      have hdigit := Nat.isDigit_of_mem_toDigits (by decide) (by decide) hmem
      cases hdigit
    rw [toList_stepName]
    simp [h, hdigits]
  have happend : ∀ k, stepName stem i k = stepName stem i "" ++ k := by
    intro k
    rw [← String.toList_inj, String.toList_append, toList_stepName, toList_stepName]
    simp
  have hsplit := Text.splitOn_slash_head hks hpre
  rw [← happend, ← happend] at hsplit
  have hlong : ∀ s, s.toList.length ≤ 1 → stepName stem i k ≠ s := by
    rintro s hs rfl
    rw [toList_stepName] at hs
    simp at hs
    omega
  refine ⟨k, ks.filter fun s => s != "" && s != ".", ?_, fun x hx => ?_⟩
  · rw [parts, hsplit, filter_cons_of_pos (by simp [hlong "" (by simp), hlong "." (by simp)])]
  · rw [parts, hks]
    exact mem_filter.mpr ⟨mem_cons_of_mem _ (mem_filter.mp hx).1, (mem_filter.mp hx).2⟩

theorem stepName_relative (h : '/' ∉ stem.toList) (i : Nat) (key s : String) :
    isAbsolute (stepName stem i key ++ s) = false := by
  rw [← Bool.not_eq_true, isAbsolute_iff]
  rintro ⟨cs, hcs⟩
  rw [String.toList_append, toList_stepName] at hcs
  cases hstem : stem.toList with
  | nil =>
    rw [hstem] at hcs
    cases hcs
  | cons c rest =>
    rw [hstem] at hcs
    rw [hstem, (cons.inj hcs).1] at h
    exact h mem_cons_self

theorem stepName_ne_up (i : Nat) (key : String) : stepName stem i key ≠ ".." := by
  intro h
  have hlen := congrArg (fun s => s.toList.length) h
  simp only [toList_stepName, length_append] at hlen
  simp at hlen
  omega

end Steps

end Path

end WorkflowInference
