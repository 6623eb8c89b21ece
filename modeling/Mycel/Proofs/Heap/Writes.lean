import Mathlib.Logic.Relation
import Mycel.Proofs.Machine.Frames

/-!
# What is written to scopes

Scopes come about one after another, and names are bound in them and assigned (`Heap.Next`). A
parent always stands before its children (`Heap.Ordered`), so from every scope there is a way
outward that ends with a root.

A binding writes one cell, which is a name in a scope, and so does an assignment that is not
refused. `Heap.Writes` says what that changes: nothing but the cell, and of what is seen from the
scopes nothing but the name where it is now found in that cell.
-/

namespace Mycel

namespace Frame

theorem get?_put (name y : Text) (v : Value) (bs : List (Text × Value)) :
    ((put name v bs).find? fun b => b.1 == y).map (·.2) =
      if y = name then some v else (bs.find? fun b => b.1 == y).map (·.2) := by
  induction bs with
  | nil =>
    by_cases hy : y = name
    · simp [put, hy]
    · simp [put, hy, Ne.symm hy]
  | cons b bs ih =>
    simp only [put]
    split_ifs with hb hy hy
    · simp [beq_iff_eq.1 hb, hy]
    · have hne : (b.1 == y) = false := by
        rw [beq_iff_eq.1 hb]
        simpa using Ne.symm hy
      simp only [List.find?_cons, hne]
    · have hne : (b.1 == y) = false := by
        rw [hy]
        simpa using hb
      rw [if_pos hy] at ih
      simp only [List.find?_cons, hne, ih]
    · rw [if_neg hy] at ih
      cases hby : b.1 == y with
      | true => simp only [List.find?_cons, hby]
      | false => simp only [List.find?_cons, hby, ih]

theorem get?_insert (f : Frame) (name y : Text) (v : Value) :
    (f.insert name v).get? y = if y = name then some v else f.get? y :=
  get?_put name y v f.bindings

theorem mem_names_iff_get? {f : Frame} {name : Text} :
    name ∈ f.names ↔ (f.get? name).isSome = true := by
  simp [mem_names, get?]

end Frame

namespace Heap

variable {h h' : Heap} {s t g : ScopeId} {x y : Text} {v : Value}

/-! ## Cells -/

/-- The value that a scope itself has for a name. -/
def cell (h : Heap) (s : ScopeId) (name : Text) : Option Value :=
  h.frames[s]?.bind (·.get? name)

theorem mem_nameSet_iff_cell : x ∈ h.nameSet s ↔ (h.cell s x).isSome = true := by
  rw [mem_nameSet, cell]
  cases h.frames[s]? with
  | none => simp
  | some f => simp [Frame.mem_names_iff_get?]

theorem get?_eq_cell (h : Heap) (s : ScopeId) (name : Text) :
    h.get? s name = (h.lookup s name).bind fun t => h.cell t name := by
  unfold get? cell
  cases h.lookup s name <;> rfl

theorem cell_define (hs : s < h.next) (x : Text) (v : Value) (t : ScopeId) (y : Text) :
    (h.define s x v).cell t y = if t = s ∧ y = x then some v else h.cell t y := by
  simp only [cell, define, Array.getElem?_modify]
  by_cases ht : s = t
  · subst ht
    obtain ⟨f, hf⟩ : ∃ f, h.frames[s]? = some f := ⟨_, Array.getElem?_eq_getElem hs⟩
    simp [hf, Frame.get?_insert]
  · simp [ht, Ne.symm ht]

theorem parent?_define (h : Heap) (s : ScopeId) (x : Text) (v : Value) (t : ScopeId) :
    (h.define s x v).parent? t = h.parent? t := by
  simp only [parent?, define, Array.getElem?_modify]
  split_ifs
  · cases h.frames[t]? <;> rfl
  · rfl

/-! ## Ways outward -/

/-- Every parent stands before its children. -/
def Ordered (h : Heap) : Prop := ∀ s p, h.parent? s = some p → p < s

/-- From every scope there is a way outward, which never comes back. -/
theorem Ordered.outward (hh : h.Ordered) (hs : s < h.next) :
    ∃ ids, h.Outward s ids ∧ ids.Pairwise (· > ·) ∧ ∀ t ∈ ids, t ≤ s := by
  induction s using Nat.strongRecOn with
  | ind s ih =>
    obtain ⟨f, hf⟩ : ∃ f, h.frames[s]? = some f := ⟨_, Array.getElem?_eq_getElem hs⟩
    cases hparent : f.parent with
    | none => exact ⟨[s], .root hf hparent, List.pairwise_singleton _ _, by simp⟩
    | some p =>
      have hp : p < s := hh s p (by rw [parent?, hf, Option.bind_some, hparent])
      obtain ⟨ids, hout, hids, hle⟩ := ih p hp (Nat.lt_trans hp hs)
      have hlt : ∀ t ∈ ids, t < s := fun t ht => Nat.lt_of_le_of_lt (hle t ht) hp
      refine ⟨s :: ids, .inner hf hparent hout, List.pairwise_cons.2 ⟨hlt, hids⟩, ?_⟩
      exact List.forall_mem_cons.2 ⟨Nat.le_refl s, fun t ht => Nat.le_of_lt (hlt t ht)⟩

/-- No scope is found by going outward from itself. -/
theorem Ordered.acyclic (hh : h.Ordered) (s : ScopeId) :
    ¬Relation.TransGen (fun a b => h.parent? a = some b) s s := by
  have hlt : ∀ t, Relation.TransGen (fun a b => h.parent? a = some b) s t → t < s := by
    intro t ht
    induction ht with
    | single hst => exact hh _ _ hst
    | tail _ hbc ih => exact Nat.lt_trans (hh _ _ hbc) ih
  exact fun hs => Nat.lt_irrefl s (hlt s hs)

/-- A way outward depends on the parents only. -/
theorem Outward.congr {ids : List ScopeId} (hout : h.Outward s ids) (hnext : h'.next = h.next)
    (hparents : ∀ t, h'.parent? t = h.parent? t) : h'.Outward s ids := by
  have hframe : ∀ (t : ScopeId) (f : Frame), h.frames[t]? = some f →
      ∃ f', h'.frames[t]? = some f' ∧ f'.parent = f.parent := by
    intro t f hf
    have ht : t < h'.next := hnext ▸ (Array.getElem?_eq_some_iff.1 hf).1
    have hparent := hparents t
    rw [parent?, parent?, hf, Array.getElem?_eq_getElem ht] at hparent
    exact ⟨_, Array.getElem?_eq_getElem ht, hparent⟩
  induction hout with
  | root hf hparent =>
    obtain ⟨f', hf', hparent'⟩ := hframe _ _ hf
    exact .root hf' (hparent'.trans hparent)
  | inner hf hparent _ ih =>
    obtain ⟨f', hf', hparent'⟩ := hframe _ _ hf
    exact .inner hf' (hparent'.trans hparent) ih

/-- The nearest of some scopes that binds a name. -/
def nearest (h : Heap) (ids : List ScopeId) (name : Text) : Option ScopeId :=
  ids.find? fun t => name ∈ h.nameSet t

/-! ## One cell -/

/-- A value is written to one cell: no other cell and no parent changes, and a scope sees the value
under the name if that is where it now finds it, and what it saw before if not. -/
structure Writes (h : Heap) (s : ScopeId) (x : Text) (v : Value) (h' : Heap) : Prop where
  next : h'.next = h.next
  parent : ∀ t, h'.parent? t = h.parent? t
  cell : ∀ t y, h'.cell t y = if t = s ∧ y = x then some v else h.cell t y
  seen : ∀ g < h.next, ∀ y,
    h'.get? g y = if y = x ∧ h'.lookup g x = some s then some v else h.get? g y

theorem mem_nameSet_define (hs : s < h.next) :
    y ∈ (h.define s x v).nameSet t ↔ (t = s ∧ y = x) ∨ y ∈ h.nameSet t := by
  rw [mem_nameSet_iff_cell, cell_define hs, mem_nameSet_iff_cell]
  split_ifs with hcell
  · simp [hcell]
  · simp [hcell]

theorem nearest_cons (h : Heap) (t : ScopeId) (ids : List ScopeId) (y : Text) :
    h.nearest (t :: ids) y = if y ∈ h.nameSet t then some t else h.nearest ids y := by
  simp only [nearest, List.find?_cons]
  split_ifs with ht <;> simp [ht]

/-- Other names are found where they were. -/
theorem nearest_define_of_ne (hs : s < h.next) (hy : y ≠ x) (ids : List ScopeId) :
    (h.define s x v).nearest ids y = h.nearest ids y := by
  induction ids with
  | nil => rfl
  | cons t ids ih => simp only [nearest_cons, mem_nameSet_define hs, hy, and_false, false_or, ih]

/-- The name is found where it was, unless it is found in the scope that it is bound in. -/
theorem nearest_define (hs : s < h.next) {ids : List ScopeId}
    (hx : (h.define s x v).nearest ids x ≠ some s) :
    (h.define s x v).nearest ids x = h.nearest ids x := by
  induction ids with
  | nil => rfl
  | cons t ids ih =>
    simp only [nearest_cons, mem_nameSet_define hs, and_true] at hx ⊢
    by_cases hts : t = s
    · simp [hts] at hx
    · simp only [hts, false_or] at hx ⊢
      by_cases ht : x ∈ h.nameSet t
      · simp [ht]
      · simp only [ht, if_false] at hx ⊢
        exact ih hx

theorem Ordered.define (hh : h.Ordered) (s : ScopeId) (x : Text) (v : Value) :
    (h.define s x v).Ordered := by
  intro t p ht
  rw [parent?_define] at ht
  exact hh t p ht

/-- Binding a name in a scope writes that cell. -/
theorem writes_define (hh : h.Ordered) (hs : s < h.next) (x : Text) (v : Value) :
    h.Writes s x v (h.define s x v) := by
  have hnext : (h.define s x v).next = h.next := by simp [next, Heap.define]
  refine ⟨hnext, parent?_define h s x v, cell_define hs x v, fun g hg y => ?_⟩
  obtain ⟨ids, hout, hids, -⟩ := hh.outward hg
  have hout' := hout.congr hnext (parent?_define h s x v)
  have hlookup : ∀ z, h.lookup g z = h.nearest ids z := hout.lookup hids
  have hlookup' : ∀ z, (h.define s x v).lookup g z = (h.define s x v).nearest ids z :=
    hout'.lookup hids
  rw [get?_eq_cell, get?_eq_cell, hlookup, hlookup', hlookup']
  by_cases hy : y = x
  · subst hy
    by_cases hfound : (h.define s y v).nearest ids y = some s
    · simp [hfound, cell_define hs]
    · rw [if_neg (fun hboth => hfound hboth.2), nearest_define hs hfound]
      cases hold : h.nearest ids y with
      | none => rfl
      | some t =>
        have ht : t ≠ s := by
          rintro rfl
          exact hfound ((nearest_define hs hfound).trans hold)
        simp [cell_define hs, ht]
  · rw [if_neg (fun hboth => hy hboth.1), nearest_define_of_ne hs hy]
    simp [cell_define hs, hy]

/-! ## Histories -/

/-- The heap after an assignment. One that is refused changes nothing. -/
def assigned (h : Heap) (s : ScopeId) (x : Text) (v : Value) : Heap := (h.set? s x v).getD h

/-- What can be done to scopes: a root or a scope inside another one is added, and a name is bound
or assigned in one that there is. -/
inductive Next : Heap → Heap → Prop
  | root (h : Heap) : Next h h.root
  | extend {h : Heap} {p : ScopeId} (hp : p < h.next) : Next h (h.extend p)
  | define {h : Heap} {s : ScopeId} (hs : s < h.next) (x : Text) (v : Value) :
      Next h (h.define s x v)
  | assign {h : Heap} {s : ScopeId} (hs : s < h.next) (x : Text) (v : Value) :
      Next h (h.assigned s x v)

/-- What can be done sooner or later. -/
abbrev Leads : Heap → Heap → Prop := Relation.ReflTransGen Next

theorem parent?_push (h : Heap) (f : Frame) (s : ScopeId) :
    parent? ⟨h.frames.push f⟩ s = if s = h.next then f.parent else h.parent? s := by
  simp only [parent?, Array.getElem?_push, next]
  by_cases hs : s = h.frames.size <;> simp [hs]

theorem assigned_eq (h : Heap) (s : ScopeId) (x : Text) (v : Value) :
    h.assigned s x v = h ∨ ∃ t, h.assigned s x v = h.define t x v := by
  unfold assigned set?
  cases h.target? s x with
  | none => exact .inl rfl
  | some t => exact .inr ⟨t, rfl⟩

/-- A step keeps the order and all parents. -/
theorem Next.keeps (hstep : h.Next h') (hh : h.Ordered) :
    h'.Ordered ∧ h.next ≤ h'.next ∧ ∀ s < h.next, h'.parent? s = h.parent? s := by
  have hdefine : ∀ t x v, (h.define t x v).Ordered ∧ h.next ≤ (h.define t x v).next ∧
      ∀ s < h.next, (h.define t x v).parent? s = h.parent? s := by
    intro t x v
    exact ⟨hh.define t x v, by simp [next, Heap.define], fun s _ => parent?_define h t x v s⟩
  have hpush : ∀ f : Frame, (∀ p, f.parent = some p → p < h.next) →
      Ordered ⟨h.frames.push f⟩ ∧ h.next ≤ next ⟨h.frames.push f⟩ ∧
        ∀ s < h.next, parent? ⟨h.frames.push f⟩ s = h.parent? s := by
    intro f hf
    refine ⟨fun s p hp => ?_, by simp [next], fun s hs => ?_⟩
    · rw [parent?_push] at hp
      split_ifs at hp with hs
      · exact hs ▸ hf p hp
      · exact hh s p hp
    · rw [parent?_push, if_neg (Nat.ne_of_lt hs)]
  cases hstep with
  | root =>
    refine hpush _ fun q hq => ?_
    cases hq
  | extend hp =>
    refine hpush _ fun q hq => ?_
    cases hq
    exact hp
  | define => exact hdefine _ _ _
  | @assign s _ x v =>
    rcases assigned_eq h s x v with heq | ⟨t, heq⟩
    · rw [heq]
      exact ⟨hh, Nat.le_refl _, fun _ _ => rfl⟩
    · rw [heq]
      exact hdefine t x v

theorem Leads.keeps (hsteps : h.Leads h') (hh : h.Ordered) :
    h'.Ordered ∧ h.next ≤ h'.next ∧ ∀ s < h.next, h'.parent? s = h.parent? s := by
  induction hsteps with
  | refl => exact ⟨hh, Nat.le_refl _, fun _ _ => rfl⟩
  | tail _ hnext ih =>
    obtain ⟨hb, hle, hparents⟩ := ih
    obtain ⟨hc, hle', hparents'⟩ := hnext.keeps hb
    refine ⟨hc, Nat.le_trans hle hle', fun s hs => ?_⟩
    rw [hparents' s (Nat.lt_of_lt_of_le hs hle), hparents s hs]

theorem ordered_empty : empty.Ordered := by
  intro s p hp
  simp [parent?, empty] at hp

/-! ## Laws -/

/-- An assignment is refused where no scope outward binds the name, except in a root. -/
theorem set?_eq_none_iff {ids : List ScopeId} (hlookup : h.lookup s x = h.nearest ids x) :
    h.set? s x v = none ↔ (∀ t ∈ ids, x ∉ h.nameSet t) ∧ h.parent? s ≠ none := by
  have hnone : h.nearest ids x = none ↔ ∀ t ∈ ids, x ∉ h.nameSet t := by
    simp [nearest, List.find?_eq_none]
  unfold set? target?
  rw [hlookup, ← hnone]
  cases h.nearest ids x with
  | some t => simp
  | none => cases h.parent? s <;> simp

/-- An assignment that is not refused binds the name where it is found, or else in the root where
it is made. -/
theorem set?_eq_some {ids : List ScopeId} (hlookup : h.lookup s x = h.nearest ids x)
    (hset : h.set? s x v = some h') : ∃ t, h' = h.define t x v ∧
      (h.nearest ids x = some t ∨ h.nearest ids x = none ∧ h.parent? s = none ∧ t = s) := by
  unfold set? target? at hset
  rw [hlookup] at hset
  cases hfound : h.nearest ids x with
  | some t =>
    rw [hfound] at hset
    exact ⟨t, (Option.some.inj hset).symm, .inl rfl⟩
  | none =>
    rw [hfound] at hset
    cases hparent : h.parent? s with
    | none =>
      rw [hparent] at hset
      exact ⟨s, (Option.some.inj hset).symm, .inr ⟨rfl, rfl, rfl⟩⟩
    | some p =>
      rw [hparent] at hset
      cases hset

/-- The laws of scopes, whatever was done to them before. An assignment is refused just if no scope
outward binds the name and there is a parent, and then nothing changes. Otherwise it writes one
cell, in the nearest scope that binds the name or in the root where it is made, and a binding writes
the cell of its own scope. Parents stay, and going outward never comes back, so a name is found in
the nearest scope that binds it, however many scopes there is time to look at. -/
theorem scope_laws (hh : empty.Leads h) {f : ScopeId} (hf : f < h.next) (x : Text) (v : Value) :
    ∃ ids, h.Outward f ids ∧
      (h.set? f x v = none ↔ (∀ t ∈ ids, x ∉ h.nameSet t) ∧ h.parent? f ≠ none) ∧
      (h.set? f x v = none → h.assigned f x v = h) ∧
      (∀ h', h.set? f x v = some h' → h.assigned f x v = h' ∧ ∃ t, h.Writes t x v h' ∧
        (h.nearest ids x = some t ∨ h.nearest ids x = none ∧ h.parent? f = none ∧ t = f)) ∧
      h.Writes f x v (h.define f x v) ∧
      (∀ y, h.lookup f y = h.nearest ids y ∧ ∀ n > f, h.lookupWithin y n f = h.lookup f y) ∧
      ¬Relation.TransGen (fun a b => h.parent? a = some b) f f ∧
      ∀ h', h.Leads h' → h'.parent? f = h.parent? f := by
  have hordered := (Leads.keeps hh ordered_empty).1
  obtain ⟨ids, hout, hids, hle⟩ := hordered.outward hf
  have hlookup : ∀ y, h.lookup f y = h.nearest ids y := hout.lookup hids
  refine ⟨ids, hout, set?_eq_none_iff (hlookup x), fun hnone => ?_, fun h' hset => ⟨?_, ?_⟩,
    writes_define hordered hf x v, fun y => ⟨hlookup y, fun n hn => ?_⟩, hordered.acyclic f,
    fun h' hleads => (Leads.keeps hleads hordered).2.2 f hf⟩
  · rw [assigned, hnone, Option.getD_none]
  · rw [assigned, hset, Option.getD_some]
  · obtain ⟨t, rfl, htarget⟩ := set?_eq_some (hlookup x) hset
    refine ⟨t, writes_define hordered ?_ x v, htarget⟩
    rcases htarget with hfound | ⟨-, -, rfl⟩
    · exact hout.lt_next t (List.mem_of_find?_eq_some hfound)
    · exact hf
  · rw [hout.lookupWithin hids y hn, hout.lookup hids y]

/-- A root that binds `x`, and two scopes inside it. -/
def siblings : Heap := ((empty.root.define 0 (bytes "x") (.bool true)).extend 0).extend 0

/-- A name of the root is assigned in one of its scopes. The other one sees the new value. -/
theorem scope_laws_siblings : empty.Leads siblings ∧ 1 < siblings.next ∧
    ∃ h', siblings.set? 1 (bytes "x") (.bool false) = some h' ∧
      siblings.Writes 0 (bytes "x") (.bool false) h' ∧
      h'.get? 2 (bytes "x") = some (.bool false) := by
  have hleads : empty.Leads siblings :=
    .tail (.tail (.tail (.single (.root empty)) (.define (by decide) _ _)) (.extend (by decide)))
      (.extend (by decide))
  obtain ⟨ids, -, -, -, hset, -⟩ :=
    scope_laws hleads (f := 1) (by decide) (bytes "x") (.bool false)
  obtain ⟨h', hh'⟩ : ∃ h', siblings.set? 1 (bytes "x") (.bool false) = some h' := ⟨_, rfl⟩
  obtain ⟨-, t, hwrites, -⟩ := hset h' hh'
  have hcell := hwrites.cell 0 (bytes "x")
  cases hh'
  by_cases ht : t = 0
  · subst ht
    exact ⟨hleads, by decide, _, rfl, hwrites, rfl⟩
  · rw [if_neg (fun hboth => ht hboth.1.symm)] at hcell
    cases hcell

end Heap

end Mycel
