import Mathlib.Order.WellFoundedSet
import WorkflowInference.Builder.Workflow
import WorkflowInference.Proofs.Entries
import WorkflowInference.Proofs.Logged

/-!
The order of linked things. Every end of a link stands in it once, unless a circle of links leads
there, and the source of a link stands before its target. `Front` is what holds after each step:
some things are done, and those wait to which all links come from what is done.
-/
namespace WorkflowInference.Builder

open List

namespace Order

open Relation (TransGen ReflTransGen)

section Circles

variable {α : Type} {links : List (α × α)} {x : α}

def Linked (links : List (α × α)) (a b : α) : Prop := (a, b) ∈ links

def AfterCircle (links : List (α × α)) (x : α) : Prop :=
  ∃ y, TransGen (Linked links) y y ∧ ReflTransGen (Linked links) y x

/-- Among finitely many links, going back ends from a thing that no circle is before. -/
theorem acc_of_not_afterCircle (h : ¬ AfterCircle links x) : Acc (Linked links) x := by
  let r (a b : α) : Prop := TransGen (Linked links) a b ∧ ReflTransGen (Linked links) b x
  have hstrict : IsStrictOrder α r :=
    { irrefl := fun a ha => h ⟨a, ha⟩
      trans := fun a b c hab hbc => ⟨hab.1.trans hbc.1, hbc.2⟩ }
  have hwf : {y | y ∈ x :: links.map (·.1)}.WellFoundedOn r := (finite_toSet _).wellFoundedOn
  refine hwf.induction (P := fun y => ReflTransGen (Linked links) y x → Acc (Linked links) y)
    mem_cons_self (fun y _ ih hy => .intro _ fun z hz => ?_) .refl
  exact ih z (mem_cons_of_mem _ (mem_map_of_mem hz)) ⟨.single hz, hy⟩ (.head hz hy)

theorem acc_iff : Acc (Linked links) x ↔ ¬ AfterCircle links x := by
  refine ⟨?_, acc_of_not_afterCircle⟩
  rintro h ⟨y, hround, hto⟩
  have hy : Acc (TransGen (Linked links)) y := by
    rcases Relation.reflTransGen_iff_eq_or_transGen.mp hto with rfl | hto
    · exact h.transGen
    · exact h.transGen.inv hto
  clear hto
  induction hy with
  | intro y _ ih => exact ih y hround hround

end Circles

section Steps

open scoped Classical

variable {α : Type} {links : List (α × α)} {done queue : List α} {x y t : α}

def IsEnd (links : List (α × α)) (x : α) : Prop := ∃ l ∈ links, x = l.1 ∨ x = l.2

/-- What is done, and what waits: the ends to which all links come from what is done. -/
structure Front (links : List (α × α)) (done queue : List α) : Prop where
  nodup : (done ++ queue).Nodup
  ready : ∀ x, x ∈ done ++ queue ↔ IsEnd links x ∧ ∀ s, (s, x) ∈ links → s ∈ done
  ordered : ∀ before x, before ++ [x] <+: done → ∀ s, (s, x) ∈ links → s ∈ before

theorem Front.not_mem (h : Front links done (x :: queue)) : x ∉ done := fun hx =>
  (nodup_append.mp h.nodup).2.2 x hx x mem_cons_self rfl

theorem Front.ordered_concat (h : Front links done (x :: queue)) :
    ∀ before y, before ++ [y] <+: done ++ [x] → ∀ s, (s, y) ∈ links → s ∈ before := by
  intro before y hpre s hs
  rcases prefix_concat_iff.mp hpre with heq | hpre
  · obtain ⟨rfl, hxy⟩ := append_inj' heq rfl
    cases hxy
    exact ((h.ready x).mp (by simp)).2 s hs
  · exact h.ordered before y hpre s hs

noncomputable def missing (links : List (α × α)) (done : List α) (x : α) : Nat :=
  links.countP fun l => decide (l.2 = x ∧ l.1 ∉ done)

theorem missing_eq_zero : missing links done x = 0 ↔ ∀ s, (s, x) ∈ links → s ∈ done := by
  simp only [missing, countP_eq_zero, decide_eq_true_eq, not_and_not_right]
  exact ⟨fun h s hs => h (s, x) hs rfl, fun h l hl hx => h l.1 (hx ▸ hl)⟩

theorem missing_concat (hx : x ∉ done) : missing links done t = missing links (done ++ [x]) t +
    links.countP fun l => decide (l.1 = x ∧ l.2 = t) := by
  induction links with
  | nil => rfl
  | cons l links ih =>
    simp only [missing, countP_cons, mem_append, mem_singleton] at ih ⊢
    rw [ih]
    by_cases hl : l.1 = x
    · simp [hl, hx]
      omega
    · simp [hl]
      omega

variable [BEq α]

def Told (links : List (α × α)) : Prop := ∀ x y, IsEnd links x → IsEnd links y → ((x == y) ↔ x = y)

namespace Told

variable (h : Told links)

include h

theorem endpoints : (endpoints links).Nodup ∧ ∀ x, x ∈ Order.endpoints links ↔ IsEnd links x := by
  have hmem : ∀ x, (x ∈ links.flatMap fun l => [l.1, l.2]) ↔ IsEnd links x := by simp [IsEnd]
  obtain ⟨hnodup, hiff⟩ := eraseDups_spec fun a ha b hb => h a b ((hmem a).mp ha) ((hmem b).mp hb)
  exact ⟨hnodup, fun x => (hiff x).trans (hmem x)⟩

theorem mem_endpoints : x ∈ Order.endpoints links ↔ IsEnd links x := h.endpoints.2 x

theorem mem_targets (hx : IsEnd links x) : t ∈ targets links x ↔ (x, t) ∈ links := by
  simp only [targets, mem_map, mem_filter]
  constructor
  · rintro ⟨l, ⟨hl, heq⟩, rfl⟩
    rwa [← (h l.1 x ⟨l, hl, .inl rfl⟩ hx).mp heq]
  · intro hl
    exact ⟨_, ⟨hl, (h x x hx hx).mpr rfl⟩, rfl⟩

theorem countP_targets (hx : IsEnd links x) :
    (targets links x).countP (fun y => decide (y = t)) = links.countP fun l =>
      decide (l.1 = x ∧ l.2 = t) := by
  rw [targets, countP_map, countP_filter]
  refine countP_congr fun l hl => ?_
  simp [h l.1 x ⟨l, hl, .inl rfl⟩ hx, and_comm]

theorem inDegree (hx : IsEnd links x) : Order.inDegree links x = missing links [] x :=
  countP_congr fun l hl => by simp [h l.2 x ⟨l, hl, .inr rfl⟩ hx]

end Told

theorem lessen_map {ends : List α} (f : α → Nat) (h : ∀ x ∈ ends, ((x == t) ↔ x = t)) :
    lessen (ends.map fun x => (x, f x)) t = ends.map fun x =>
      (x, if x = t then f x - 1 else f x) := by
  rw [lessen, map_map]
  refine map_congr_left fun x hx => ?_
  simp only [Function.comp_apply, h x hx]
  split <;> rfl

theorem any_free {ends : List α} (f : α → Nat) (h : ∀ x ∈ ends, ((x == t) ↔ x = t))
    (ht : t ∈ ends) :
    ((ends.map fun x => (x, f x)).any fun d => d.1 == t && d.2 == 0) ↔ f t = 0 := by
  simp only [any_map, any_eq_true, Function.comp_apply, Bool.and_eq_true, beq_iff_eq]
  constructor
  · rintro ⟨x, hx, hxt, h0⟩
    rwa [← (h x hx).mp hxt]
  · exact fun h0 => ⟨t, ht, (h t ht).mpr rfl, h0⟩

/-- Taking away as many links as there are puts each target into the queue once, at its last link.
-/
theorem release_spec {ts : List α} (ends queue : List α) (f : α → Nat) (hends : ∀ t ∈ ts, t ∈ ends)
    (htold : ∀ x ∈ ends, ∀ t ∈ ts, ((x == t) ↔ x = t))
    (hcount : ∀ t, ts.countP (fun y => decide (y = t)) ≤ f t) :
    ∃ new, release (ends.map fun x => (x, f x)) queue ts =
        (ends.map fun x => (x, f x - ts.countP fun y => decide (y = x)), queue ++ new) ∧
      new.Nodup ∧ ∀ x, x ∈ new ↔ x ∈ ts ∧ f x = ts.countP fun y => decide (y = x) := by
  induction ts generalizing f queue with
  | nil => exact ⟨[], by simp [release], nodup_nil, by simp⟩
  | cons t ts ih =>
    have hsame : ∀ x ∈ ends, ((x == t) ↔ x = t) := fun x hx => htold x hx t mem_cons_self
    let g : α → Nat := fun x => if x = t then f x - 1 else f x
    have hg : ∀ x, ts.countP (fun y => decide (y = x)) ≤ g x ∧
        g x - ts.countP (fun y => decide (y = x)) = f x - (t :: ts).countP fun y =>
        decide (y = x) := by
      intro x
      have hle := hcount x
      simp only [countP_cons, decide_eq_true_eq, g] at hle ⊢
      split_ifs at hle ⊢ <;> grind
    obtain ⟨new, hnew, hnodup, hiff⟩ := ih (if g t = 0 then queue ++ [t] else queue) g
      (fun u hu => hends u (mem_cons_of_mem _ hu)) (fun x hx u hu =>
        htold x hx u (mem_cons_of_mem _ hu))
      fun x => (hg x).1
    have hpos : t ∈ ts → 0 < ts.countP fun y => decide (y = t) :=
      fun h => countP_pos_iff.mpr ⟨t, h, by simp⟩
    have hnot : t ∉ ts → ts.countP (fun y => decide (y = t)) = 0 := fun h =>
      countP_eq_zero.mpr fun y hy => by simpa using fun heq : y = t => h (heq ▸ hy)
    refine ⟨(if g t = 0 then [t] else []) ++ new, ?_, ?_, fun x => ?_⟩
    · simp only [release, lessen_map f hsame]
      rw [show (fun x => (x, if x = t then f x - 1 else f x)) = fun x => (x, g x) from rfl]
      simp only [any_free g hsame (hends t mem_cons_self), hnew, (hg _).2]
      split <;> simp
    · split
      · rename_i h0
        refine nodup_cons.mpr ⟨fun hx => ?_, hnodup⟩
        have := hpos ((hiff t).mp hx).1
        have := (hg t).1
        omega
      · exact hnodup
    · have hle := hcount x
      rw [mem_append, hiff, mem_cons]
      simp only [countP_cons, decide_eq_true_eq, g] at hle ⊢
      grind

theorem Front.start (h : Told links) :
    Front links [] ((endpoints links).filter fun x => inDegree links x == 0) where
  nodup := h.endpoints.1.filter _
  ready x := by
    rw [nil_append, mem_filter, h.mem_endpoints, beq_iff_eq, ← missing_eq_zero]
    exact and_congr_right fun hx => by rw [h.inDegree hx]
  ordered before x h := by simp at h

theorem Front.step (htold : Told links) (h : Front links done (x :: queue)) :
    ∃ new, release ((endpoints links).map fun y => (y, missing links done y)) queue
        (targets links x) =
        ((endpoints links).map fun y => (y, missing links (done ++ [x]) y), queue ++ new) ∧
      Front links (done ++ [x]) (queue ++ new) := by
  have hx : IsEnd links x := ((h.ready x).mp (by simp)).1
  have hcount : ∀ y, missing links done y =
      missing links (done ++ [x]) y + (targets links x).countP fun z => decide (z = y) := by
    intro y
    rw [htold.countP_targets hx]
    exact missing_concat h.not_mem
  have htarget : ∀ t ∈ targets links x, IsEnd links t := fun t ht =>
    ⟨(x, t), (htold.mem_targets hx).mp ht, .inr rfl⟩
  obtain ⟨new, hnew, hnodup, hiff⟩ := release_spec (endpoints links) queue (missing links done)
    (fun t ht => htold.mem_endpoints.mpr (htarget t ht))
    (fun y hy t ht => htold y t (htold.mem_endpoints.mp hy) (htarget t ht)) fun t => by
    have := hcount t; omega
  have hmem : ∀ y, y ∈ new ↔ (x, y) ∈ links ∧ missing links (done ++ [x]) y = 0 := by
    intro y
    rw [hiff, htold.mem_targets hx]
    have := hcount y
    exact and_congr_right fun _ => by omega
  have hsplit : ∀ zs, done ++ [x] ++ (queue ++ zs) = (done ++ x :: queue) ++ zs := by simp
  refine ⟨new, ?_, ?_, fun y => ?_, h.ordered_concat⟩
  · rw [hnew]
    refine congrArg (·, queue ++ new) (map_congr_left fun y _ => ?_)
    have := hcount y
    simp only [Prod.mk.injEq, true_and]
    omega
  · -- what is new was held back by the thing just done, so it did not wait before
    rw [hsplit, nodup_append]
    refine ⟨h.nodup, hnodup, fun y hy z hz heq => ?_⟩
    subst heq
    exact h.not_mem (((h.ready y).mp hy).2 x ((hmem y).mp hz).1)
  · rw [hsplit, mem_append, h.ready y, hmem, ← missing_eq_zero, ← missing_eq_zero]
    have hy := hcount y
    constructor
    · rintro (⟨hend, h0⟩ | ⟨hlink, h0⟩)
      · exact ⟨hend, by omega⟩
      · exact ⟨⟨_, hlink, .inr rfl⟩, h0⟩
    · rintro ⟨hend, h0⟩
      by_cases hlink : (x, y) ∈ links
      · exact .inr ⟨hlink, h0⟩
      · have hnone : (targets links x).countP (fun z => decide (z = y)) = 0 :=
          countP_eq_zero.mpr fun z hz => by
            simpa using fun heq : z = y => hlink (heq ▸ (htold.mem_targets hx).mp hz)
        exact .inl ⟨hend, by omega⟩

theorem run_nil (n : Nat) : run links n degrees [] = [] := by cases n <;> rfl

/-- After as many steps as there are ends nothing waits any more, and more steps change nothing. -/
theorem Front.run (htold : Told links) (h : Front links done queue)
    (hn : (endpoints links).length ≤ n + done.length) :
    ∃ rest, (∀ m, n ≤ m →
      Order.run links m ((endpoints links).map fun y => (y, missing links done y)) queue = rest) ∧
      Front links (done ++ rest) [] := by
  induction n generalizing done queue with
  | zero =>
    have hle : (done ++ queue).length ≤ (endpoints links).length :=
      List.Subperm.length_le (h.nodup.subperm fun x hx =>
        htold.mem_endpoints.mpr ((h.ready x).mp hx).1)
    rw [length_append] at hle
    obtain rfl : queue = [] := eq_nil_of_length_eq_zero (by omega)
    exact ⟨[], fun m _ => run_nil m, by simpa using h⟩
  | succ n ih =>
    cases queue with
    | nil => exact ⟨[], fun m _ => run_nil m, by simpa using h⟩
    | cons x queue =>
      obtain ⟨new, hnew, hfront⟩ := h.step htold
      obtain ⟨rest, hrest, hdone⟩ := ih hfront (by rw [length_append, length_singleton]; omega)
      refine ⟨x :: rest, fun m hm => ?_, by rwa [append_assoc, singleton_append] at hdone⟩
      obtain ⟨m, rfl⟩ := Nat.exists_eq_add_of_le' hm
      rw [← Nat.add_assoc, Order.run, hnew]
      exact congrArg (x :: ·) (hrest _ (Nat.le_add_left ..))

end Steps

section Orders

variable {α : Type} {links : List (α × α)} {order : List α} {x : α}

/-- An order of what is linked: the ends of links before which there is no circle, each once, and
each source before its targets. -/
structure Sorts (links : List (α × α)) (order : List α) : Prop where
  nodup : order.Nodup
  mem_iff : ∀ x, x ∈ order ↔ IsEnd links x ∧ ¬ AfterCircle links x
  before : ∀ s t, (s, t) ∈ links → ∀ before after, order = before ++ t :: after → s ∈ before

theorem Front.acc (h : Front links order []) (before : List α) (hpre : before <+: order) :
    ∀ x ∈ before, Acc (Linked links) x := by
  -- what links to a thing stands before it
  induction before using reverseRecOn with
  | nil => nofun
  | append_singleton before y ih =>
    have hbefore := ih ((prefix_append before [y]).trans hpre)
    intro x hx
    rcases mem_append.mp hx with hx | hx
    · exact hbefore x hx
    · rw [mem_singleton.mp hx]
      exact .intro _ fun s hs => hbefore s (h.ordered before y hpre s hs)

theorem Front.sorts (h : Front links order []) : Sorts links order where
  nodup := by simpa using h.nodup
  mem_iff x := by
    have hready : ∀ y, y ∈ order ↔ IsEnd links y ∧ ∀ s, (s, y) ∈ links → s ∈ order := by
      simpa using h.ready
    rw [← acc_iff]
    refine ⟨fun hx => ⟨((hready x).mp hx).1, h.acc order prefix_rfl x hx⟩, ?_⟩
    rintro ⟨hend, hacc⟩
    induction hacc with
    | intro x _ ih => exact (hready x).mpr ⟨hend, fun s hs => ih s hs ⟨_, hs, .inl rfl⟩⟩
  before s t hs before after heq := h.ordered before t ⟨after, by simp [heq]⟩ s hs

end Orders

theorem ofLinks_sorts {α : Type} [BEq α] {links : List (α × α)} (h : Told links) :
    (∀ n, (endpoints links).length ≤ n →
      run links n ((endpoints links).map fun x => (x, inDegree links x))
      ((endpoints links).filter fun x => inDegree links x == 0) = ofLinks links) ∧
      Sorts links (ofLinks links) := by
  have hdegrees : (endpoints links).map (fun x => (x, missing links [] x)) =
      (endpoints links).map fun x => (x, inDegree links x) :=
    map_congr_left fun x hx => by rw [h.inDegree (h.mem_endpoints.mp hx)]
  obtain ⟨order, hrun, hdone⟩ := (Front.start h).run (n := (endpoints links).length) h (by simp)
  rw [hdegrees] at hrun
  have heq : ofLinks links = order := hrun _ (Nat.le_refl _)
  rw [heq]
  exact ⟨hrun, Front.sorts (by simpa using hdone)⟩

end Order

def IsId : Doc → Prop
  | .str _ | .int _ => True
  | _ => False

structure Joins (link : Doc) (ends : Doc × Doc) : Prop where
  source : link.field "sourceId" = .ok ends.1
  target : link.field "targetId" = .ok ends.2
  ids : IsId ends.1 ∧ IsId ends.2

theorem IsId.beq_iff (ha : IsId a) (hb : IsId b) : (a == b) ↔ a = b := by
  cases b with
  | str s => exact Doc.beq_str_iff
  | int m =>
    cases a with
    | str s =>
      show Doc.eq _ _ ↔ _
      simp [Doc.eq]
    | int n =>
      show Doc.eq _ _ ↔ _
      simp [Doc.eq, Doc.numEq, Doc.dyadic?, Decimal.pow2]
    | _ => exact ha.elim
  | _ => exact hb.elim

theorem IsId.hashable (ha : IsId a) : a.hashable := by
  cases a with
  | str s => rfl
  | int n => rfl
  | _ => exact ha.elim

variable {links : List Doc} {ends : List (Doc × Doc)}

theorem endsOf_joins (h : List.Forall₂ Joins links ends) : endsOf links = .ok ends := by
  refine Result.mapM_of_forall₂ (h.imp fun l e hl => ?_)
  rw [hl.source, hl.target]
  simp [bind, Except.bind, pure, Except.pure, hl.ids.1.hashable, hl.ids.2.hashable]

theorem told_joins (h : List.Forall₂ Joins links ends) : Order.Told ends := by
  have hall : ∀ e ∈ ends, IsId e.1 ∧ IsId e.2 := by
    induction h with
    | nil => simp
    | cons hl _ ih => exact forall_mem_cons.mpr ⟨hl.ids, ih⟩
  have hids : ∀ x, Order.IsEnd ends x → IsId x := by
    rintro x ⟨e, he, rfl | rfl⟩
    · exact (hall e he).1
    · exact (hall e he).2
  exact fun x y hx hy => (hids x hx).beq_iff (hids y hy)

/-- Links are put in order: however long the queue is worked on, it ends with the same list, in
which every end stands once unless it lies on a circle or behind one, with sources before targets.
Without circles these are all the ends. -/
theorem links_put_in_order (h : List.Forall₂ Joins links ends) :
    endsOf links = .ok ends ∧
      (∀ n, (Order.endpoints ends).length ≤ n →
        Order.run ends n ((Order.endpoints ends).map fun x => (x, Order.inDegree ends x))
          ((Order.endpoints ends).filter fun x => Order.inDegree ends x == 0) =
          Order.ofLinks ends) ∧
      Order.Sorts ends (Order.ofLinks ends) ∧
      ((∀ x, ¬ Relation.TransGen (Order.Linked ends) x x) →
        (Order.ofLinks ends).Perm (Order.endpoints ends)) := by
  have htold := told_joins h
  obtain ⟨hrun, hsorts⟩ := Order.ofLinks_sorts htold
  refine ⟨endsOf_joins h, hrun, hsorts, fun hfree => ?_⟩
  refine (List.perm_ext_iff_of_nodup hsorts.nodup htold.endpoints.1).mpr fun x => ?_
  rw [hsorts.mem_iff, htold.mem_endpoints]
  exact and_iff_left fun ⟨y, hround, _⟩ => hfree y hround

theorem links_put_in_order_circling :
    let link (s t : Doc) := Doc.obj [("sourceId", s), ("targetId", t)]
    let links := [link (.str "b") (.str "c"), link (.int 1) (.str "b"), link (.int 1) (.str "b"),
      link (.str "d") (.str "d"), link (.str "d") (.int 2), link (.str "c") (.int 3),
      link (.int 4) (.int 3), link (.int 4) (.int 5), link (.int 5) (.int 4)]
    ∃ ends, endsOf links = .ok ends ∧ Order.ofLinks ends = [.int 1, .str "b", .str "c"] ∧
      Order.Sorts ends (Order.ofLinks ends) := by
  intro link links
  have hjoins : List.Forall₂ Joins links [(.str "b", .str "c"), (.int 1, .str "b"),
      (.int 1, .str "b"), (.str "d", .str "d"), (.str "d", .int 2), (.str "c", .int 3),
      (.int 4, .int 3), (.int 4, .int 5), (.int 5, .int 4)] := by
    repeat first
      | exact .nil
      | refine .cons ⟨rfl, rfl, trivial, trivial⟩ ?_
  obtain ⟨hends, -, hsorts, -⟩ := links_put_in_order hjoins
  exact ⟨_, hends, by with_unfolding_all rfl, hsorts⟩

end WorkflowInference.Builder
