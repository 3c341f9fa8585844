import WorkflowInference.Proofs.Assembly.Command

/-!
The scattering of steps through a history of calls, some of which may fail. The inputs that a step
is repeated over are looked at when the scattering is set, but not when they are bound again.
-/
namespace WorkflowInference.Assembly

open Assemble

inductive Call where
  | bindInput (i : Nat) (key : String) (g : Given) (implicit : Bool)
  | scatter (i : Nat) (gs : List Given)
  | scatterMethod (i : Nat) (method : Doc)
  | scatterOn (i : Nat) (gs : List Given) (method : Doc)

def Call.run : Call → Assemble Unit
  | bindInput i key g implicit => Assemble.bindInput i key g implicit
  | scatter i gs => setScatter i gs
  | scatterMethod i method => setScatterMethod i method
  | scatterOn i gs method => Assemble.scatterOn i gs method

/-- A scattering that can be done, but for inputs that were bound again. -/
structure Process.Scattered (p : Process) (part : StepPart) (rebound : String → Prop) : Prop where
  nodup : part.scatter.Nodup
  method : ∀ m, part.scatterMethod = .str m → m = "" ∨ m ∈ scatterMethods
  bound : ∀ k ∈ part.scatter, ∃ x, p.inputs.lookup k = some x ∧ x.binding.isSome ∧
    (rebound k ∨ x.scatterable)

def Scene.Scattered (s : Scene) (n : Nat) (rebound : String → Prop) : Prop :=
  ∀ p part, s.process? n = some p → p.content = .step part → p.Scattered part rebound

def Scene.ScattersOver (s : Scene) (n : Nat) (key : String) : Prop :=
  ∃ p part, s.process? n = some p ∧ p.content = .step part ∧ key ∈ part.scatter

/-- The scene after a history of calls; a call that fails may have changed it too. -/
def Scene.after (s : Scene) (cs : List Call) : Scene := cs.foldl (fun s c => (c.run.outcome s).2) s

def Scene.Rebound (s : Scene) (cs : List Call) (n : Nat) (key : String) : Prop :=
  ∃ ds g implicit es, cs = ds ++ .bindInput n key g implicit :: es ∧ (s.after ds).ScattersOver n key

variable {n : Nat} {free rebound : String → Prop} {s t u : Scene} {i : Nat} {p q r : Process}
  {key : String} {x : Input}

theorem Input.binding_of_scatterable (h : x.scatterable) : x.binding.isSome := by
  unfold Input.scatterable at h
  split at h
  · cases h
  · rename_i hb
    rw [hb, Option.isSome_some]

theorem scattered_of_set {part : StepPart} {keys : List String} (hnodup : keys.Nodup)
    (hkeys : ∀ k ∈ keys, p.Scatterable k)
    (hmethod : ∀ m, part.scatterMethod = .str m → m = "" ∨ m ∈ scatterMethods) :
    Process.Scattered { p with content := .step { part with scatter := keys } }
      { part with scatter := keys } rebound := by
  refine ⟨hnodup, hmethod, fun k hk => ?_⟩
  obtain ⟨x, hx, hscatter⟩ := hkeys k hk
  exact ⟨x, hx, x.binding_of_scatterable hscatter, .inr hscatter⟩

theorem checkScatterMethod_str (h : checkScatterMethod (.str m) = .ok ()) :
    m = "" ∨ m ∈ scatterMethods := by
  rw [checkScatterMethod] at h
  split at h
  · rename_i hm
    simpa using hm
  · cases h

/-! What binding leaves as it is. -/

/-- Inputs that were bound stay bound, and only those in `free` may hold something else. -/
structure Process.Rebinds (free : String → Prop) (p q : Process) : Prop where
  content : q.content = p.content
  inputs : ∀ k x, p.inputs.lookup k = some x → x.binding.isSome →
    ∃ y, q.inputs.lookup k = some y ∧ y.binding.isSome ∧ (free k ∨ (x.scatterable → y.scatterable))

namespace Process.Rebinds

theorem refl (p : Process) : p.Rebinds free p := ⟨rfl, fun _ x hx hb => ⟨x, hx, hb, .inr id⟩⟩

theorem trans (h : p.Rebinds free q) (h' : q.Rebinds free r) : p.Rebinds free r where
  content := h'.content.trans h.content
  inputs k x hx hb := by
    obtain ⟨y, hy, hb, hxy⟩ := h.inputs k x hx hb
    obtain ⟨z, hz, hb, hyz⟩ := h'.inputs k y hy hb
    exact ⟨z, hz, hb, by tauto⟩

theorem setInput (h : ∀ y, p.inputs.lookup key = some y → y.binding.isSome →
      x.binding.isSome ∧ (free key ∨ (y.scatterable → x.scatterable))) :
    p.Rebinds free { p with inputs := Keyed.put p.inputs key x } where
  content := rfl
  inputs k y hy hb := by
    by_cases hk : key = k
    · subst hk
      exact ⟨x, Keyed.lookup_put.trans (if_pos rfl), h y hy hb⟩
    · exact ⟨y, Keyed.lookup_put.trans (by rw [if_neg hk, hy]), hb, .inr id⟩

end Process.Rebinds

def Scene.Keeps (n : Nat) (free : String → Prop) (s t : Scene) : Prop :=
  ∀ q, t.process? n = some q → ∃ p, s.process? n = some p ∧ p.Rebinds free q

theorem Scene.Keeps.refl (s : Scene) : s.Keeps n free s := fun p hp => ⟨p, hp, .refl p⟩

theorem Scene.Keeps.trans (h : s.Keeps n free t) (h' : t.Keeps n free u) : s.Keeps n free u := by
  intro r hr
  obtain ⟨q, hq, hqr⟩ := h' r hr
  obtain ⟨p, hp, hpq⟩ := h q hq
  exact ⟨p, hp, hpq.trans hqr⟩

theorem Scene.Keeps.put (hp : s.process? i = some p) (h : i = n → p.Rebinds free q) :
    s.Keeps n free (s.put i q) := by
  intro r hr
  rw [process?_put hp] at hr
  split at hr
  · rename_i hin
    cases hr
    exact ⟨p, hin ▸ hp, h hin⟩
  · exact ⟨r, hr, .refl r⟩

namespace Assemble

open Scene (Keeps)

variable {g : Given} {type : Doc} {implicit : Bool}

instance : Absorbs (Keeps n free) (Keeps n free) where
  same h p hp := ⟨p, (Scene.process?_congr h n).symm.trans hp, .refl p⟩
  of_quiet h := h
  trans := Keeps.trans

theorem retype_keeps (hp : s.process? i = some p) (hx : p.inputs.lookup key = some x) :
    s.Keeps n free (s.put i { p with inputs := Keyed.put p.inputs key { x with facts := f } }) := by
  refine .put hp fun _ => .setInput fun y hy hb => ?_
  cases hx.symm.trans hy
  exact ⟨hb, .inr id⟩

theorem setInput_keeps (h : i = n → free key) (hx : x.binding.isSome) :
    Moves (Keeps n free) (setInput i key x) :=
  fun _ => .process_bind (Absorbs.same rfl) fun _ hp =>
    .setProcess (.put hp fun hin => .setInput fun _ _ _ => ⟨hx, .inl (h hin)⟩)

theorem ensureInput_keeps : Moves (Keeps n free) (ensureInput i key type implicit) := by
  refine ensureInput_moves (fun s p f hp hx _ => ?_) fun _ _ _ _ hp hx _ => retype_keeps hp hx
  exact .put hp fun _ => .setInput fun y hy => by cases hx.symm.trans hy

theorem bindTo_keeps (h : i = n → free key) : Moves (Keeps n free) (do
    let y ← liftM ((x.bind b).setBoundType type)
    setInput i key y) := by
  intro s
  refine .lift_bind (Absorbs.same rfl) fun y hy => ?_
  obtain ⟨r, -, hy⟩ := Result.of_bind hy
  cases hy
  exact setInput_keeps h rfl s

theorem bindExisting_keeps (h : i = n → free key) :
    Moves (Keeps n free) (bindExisting i key g) := by
  have hinline : ∀ d, Moves (Keeps n free) (bindInline i key d) := fun d =>
    .input_bind fun x => .bind (setInput_keeps h rfl) fun _ => .bind .files fun fs => bindTo_keeps h
  cases g with
  | literal d => exact hinline d
  | input j k => exact hinline _
  | reference w name implicit =>
    exact .input_bind fun x => .bind ensureInput_keeps fun _ => .input_bind fun outer =>
      .input_bind fun x =>
      .bind (setInput_keeps h rfl) fun _ => bindTo_keeps h
  | output r =>
    refine .process_bind fun q => .ite (.process_bind fun p => .output_bind fun source => ?_)
      (.output_bind fun _ => .throw _)
    intro s
    refine .input_bind (Absorbs.same rfl) fun p x hp hx =>
      .lift_bind (Absorbs.same rfl) fun f _ => ?_
    refine .bind (.setInput_of hp (retype_keeps hp hx)) fun _ t hst =>
      Moves.after (S := Keeps n free) ?_ hst
    refine .bind (fun _ => .process_bind (Absorbs.same rfl) fun _ hp =>
      .setProcess (.put hp fun _ => ⟨rfl, ?_⟩)) fun _ =>
      .input_bind fun x => .bind (setInput_keeps h rfl) fun _ => bindTo_keeps h
    exact (Process.Rebinds.refl _).inputs

theorem bindInput_keeps (h : i = n → free key) :
    Moves (Keeps n free) (bindInput i key g implicit) :=
  bindInput_moves ensureInput_keeps (bindExisting_keeps h)

end Assemble

/-! What stays true of a scattering. -/

namespace Scene.Scattered

section

variable (hs : s.Scattered n rebound)

include hs

theorem keeps {more : String → Prop} (hst : s.Keeps n free t) (hmore : ∀ k, rebound k → more k)
    (hfree : ∀ k, free k → s.ScattersOver n k → more k) : t.Scattered n more := by
  intro q part hq hpart
  obtain ⟨p, hp, hpq⟩ := hst q hq
  have hpart : p.content = .step part := hpq.content.symm.trans hpart
  obtain ⟨hnodup, hmethod, hbound⟩ := hs p part hp hpart
  refine ⟨hnodup, hmethod, fun k hk => ?_⟩
  obtain ⟨x, hx, hb, hscatter⟩ := hbound k hk
  obtain ⟨y, hy, hb, hxy⟩ := hpq.inputs k x hx hb
  have hover := fun h => hfree k h ⟨p, part, hp, hpart, hk⟩
  have hold := hmore k
  exact ⟨y, hy, hb, by tauto⟩

theorem mono {more : String → Prop} (h : ∀ k, rebound k → more k) : s.Scattered n more :=
  hs.keeps (.refl s) h fun _ => False.elim

theorem put (hp : s.process? i = some p)
    (h : ∀ part, i = n → q.content = .step part → q.Scattered part rebound) :
    (s.put i q).Scattered n rebound := by
  intro r part hr hpart
  rw [process?_put hp] at hr
  split at hr
  · cases hr
    exact h part ‹_› hpart
  · exact hs r part hr hpart

theorem setScatter {gs : List Given} :
    Ends (setScatter i gs) s (fun _ t => t.Scattered n rebound) fun t => t.Scattered n rebound := by
  refine setScatter_spec.imp ?_ fun t ht => ht ▸ hs
  rintro _ _ ⟨p, part, keys, hp, hpart, hnodup, hkeys, rfl⟩
  refine hs.put hp fun part' hin hpart' => ?_
  cases hpart'
  exact scattered_of_set hnodup hkeys (hs p part (hin ▸ hp) hpart).method

theorem setScatterMethod : Ends (setScatterMethod i method) s
    (fun _ t => t.Scattered n rebound) fun t => t.Scattered n rebound := by
  refine setScatterMethod_spec.imp ?_ fun t ht => ht ▸ hs
  rintro _ _ ⟨p, part, hp, hpart, hcheck, rfl⟩
  refine hs.put hp fun part' hin hpart' => ?_
  cases hpart'
  obtain ⟨hnodup, -, hbound⟩ := hs p part (hin ▸ hp) hpart
  exact ⟨hnodup, fun m hm => checkScatterMethod_str (hm ▸ hcheck), hbound⟩

theorem call (c : Call)
    (h : ∀ k g implicit, c = .bindInput n k g implicit → s.ScattersOver n k → rebound k) :
    Ends c.run s (fun _ t => t.Scattered n rebound) fun t => t.Scattered n rebound := by
  cases c with
  | bindInput i key g implicit =>
    have hkeeps : Moves (Scene.Keeps n fun k => i = n ∧ key = k) (bindInput i key g implicit) :=
      bindInput_keeps fun hin => ⟨hin, rfl⟩
    refine (hkeeps s).mono fun ht => hs.keeps ht (fun _ => id) ?_
    rintro _ ⟨rfl, rfl⟩
    exact h _ _ _ rfl
  | scatter i gs => exact hs.setScatter
  | scatterMethod i method => exact hs.setScatterMethod
  | scatterOn i gs method => exact hs.setScatter.bind fun _ _ ht => ht.setScatterMethod

end

theorem after (hs : s.Scattered n fun _ => False) (cs : List Call) :
    (s.after cs).Scattered n (s.Rebound cs n) := by
  induction cs using List.reverseRecOn with
  | nil => exact hs.mono fun _ => False.elim
  | append_singleton cs c ih =>
    have hbefore : (s.after cs).Scattered n (s.Rebound (cs ++ [c]) n) := by
      refine ih.mono ?_
      rintro k ⟨ds, g, implicit, es, rfl, hover⟩
      exact ⟨ds, g, implicit, es ++ [c], by simp, hover⟩
    have hcall :=
      hbefore.call c fun k g implicit hc hover => ⟨cs, g, implicit, [], by rw [hc], hover⟩
    rw [Scene.after, List.foldl_append]
    change (c.run.outcome (s.after cs)).2.Scattered n _
    rcases hout : c.run.outcome (s.after cs) with ⟨e | a, t⟩
    · exact hcall.error hout
    · exact hcall.ok hout

end Scene.Scattered

/-- Through every history of calls, the scattering of a step has no input twice and no unknown
method and is over bound inputs of the step; one that is no array was bound again. Setting the
scattering makes all arrays. -/
theorem scatter_valid_unless_rebound (hs : s.Scattered n fun _ => False) (cs : List Call) :
    (s.after cs).Scattered n (s.Rebound cs n) ∧
      ∀ gs t, (setScatter n gs).outcome (s.after cs) = (.ok (), t) →
      t.Scattered n fun _ => False := by
  refine ⟨hs.after cs, fun gs t ht p part hp hpart => ?_⟩
  obtain ⟨p', part', keys, hp', hpart', hnodup, hkeys, rfl⟩ := setScatter_spec.ok ht
  rw [Scene.process?_put_self hp'] at hp
  cases hp
  cases hpart
  exact scattered_of_set hnodup hkeys (hs.after cs p' part' hp' hpart').method

namespace Sample

def listed : Scene where
  session := { files := { cwd := "/" } }
  processes := [{
    name := "t"
    inputs := [("m", {
      facts := ⟨"m", .str "string", true⟩
      binding := some (.inline (.list [.str "a", .str "b"])) })]
    content := .step { path := "t.cwl", tool := .null } }]

def rebinding : List Call :=
  [.scatterOn 0 [.input 0 "m"] (.str "crossproduct"), .bindInput 0 "m" (.literal (.str "c")) false]

def scatterAt (s : Scene) (n : Nat) : List (String × Option Bool) :=
  match s.process? n with
  | some { content := .step part, inputs, .. } =>
    part.scatter.map fun k => (k, (inputs.lookup k).map Input.scatterable)
  | _ => []

end Sample

open Sample in
theorem scatter_valid_unless_rebound_text : (listed.Scattered 0 fun _ => False) ∧
    scatterAt (listed.after rebinding) 0 = [("m", some false)] ∧
    (listed.after rebinding).Scattered 0 (listed.Rebound rebinding 0) := by
  have hs : listed.Scattered 0 fun _ => False := by
    intro p part hp hpart
    cases hp
    cases hpart
    exact ⟨.nil, fun m hm => .inl (Doc.str.inj hm).symm, fun k hk => by cases hk⟩
  exact ⟨hs, by decide +kernel, (scatter_valid_unless_rebound hs rebinding).1⟩

end WorkflowInference.Assembly
