import Mathlib.Data.Finset.Dedup
import Mathlib.Data.Finset.Lattice.Lemmas
import Mycel.Proofs.Machine.Reach

/-!
# Scopes from the inside outward

`Heap.Outward` lists the scopes that are seen from a scope. Where a parent stands before its
children, looking up a name finds the first one of them that binds it (`Outward.lookup`).

A heap grows (`Heap.Grows`) when scopes are added to it and roots get new names. Neither the scopes
around a scope nor the names of a scope with a parent change then, so what is seen from a scope
stays the same, up to the names of its root (`Outward.grows`, `Outward.map_nameSet`).
-/

namespace Mycel

namespace Frame

variable {f : Frame} {name : Text}

/-- The names that a frame binds. -/
def names (f : Frame) : Finset Text := (f.bindings.map (·.1)).toFinset

theorem mem_names : name ∈ f.names ↔ ∃ v, (name, v) ∈ f.bindings := by
  simp [names]

theorem binds_iff : f.binds name = true ↔ name ∈ f.names := by
  simp [binds, mem_names]

/-- A name that a frame binds has a value there. -/
theorem exists_get? (h : name ∈ f.names) : ∃ v, f.get? name = some v := by
  obtain ⟨v, hv⟩ := mem_names.1 h
  have hfind : (f.bindings.find? fun b => b.1 == name).isSome = true :=
    List.find?_isSome.2 ⟨(name, v), hv, beq_self_eq_true name⟩
  obtain ⟨b, hb⟩ := Option.isSome_iff_exists.1 hfind
  exact ⟨b.2, Option.map_eq_some_iff.2 ⟨b, hb, rfl⟩⟩

theorem map_fst_put (name : Text) (v : Value) (bs : List (Text × Value)) :
    ((put name v bs).map (·.1)).toFinset = {name} ∪ (bs.map (·.1)).toFinset := by
  induction bs with
  | nil => simp [put]
  | cons b bs ih =>
    simp only [put]
    split_ifs with hb
    · have hb : b.1 = name := beq_iff_eq.1 hb
      simp [hb]
    · simp only [List.map_cons, List.toFinset_cons, ih, Finset.union_insert]

theorem names_insert (f : Frame) (name : Text) (v : Value) :
    (f.insert name v).names = {name} ∪ f.names :=
  map_fst_put name v f.bindings

end Frame

namespace Heap

variable {h h' h'' : Heap} {s : ScopeId} {f : Frame}

/-- The set of the names that a scope binds itself. -/
def nameSet (h : Heap) (s : ScopeId) : Finset Text := (h.names s).toFinset

theorem nameSet_eq (hf : h.frames[s]? = some f) : h.nameSet s = f.names := by
  ext name
  simp [nameSet, names, hf, Text.sort, Frame.names]

theorem mem_nameSet {name : Text} :
    name ∈ h.nameSet s ↔ ∃ f, h.frames[s]? = some f ∧ name ∈ f.names := by
  cases hf : h.frames[s]? with
  | none => simp [nameSet, names, hf]
  | some f => simp [nameSet_eq hf]

/-- The scopes that are seen from a scope: itself, the one around it, and so on up to a root. -/
inductive Outward (h : Heap) : ScopeId → List ScopeId → Prop
  | root {s : ScopeId} {f : Frame} (hf : h.frames[s]? = some f) (hparent : f.parent = none) :
      h.Outward s [s]
  | inner {s p : ScopeId} {f : Frame} {ids : List ScopeId} (hf : h.frames[s]? = some f)
      (hparent : f.parent = some p) (rest : h.Outward p ids) : h.Outward s (s :: ids)

namespace Outward

variable {ids : List ScopeId}

theorem lt_next (hout : h.Outward s ids) : ∀ t ∈ ids, t < h.next := by
  induction hout with
  | root hf _ => exact List.forall_mem_singleton.2 (Array.getElem?_eq_some_iff.1 hf).1
  | inner hf _ _ ih => exact List.forall_mem_cons.2 ⟨(Array.getElem?_eq_some_iff.1 hf).1, ih⟩

theorem mem_self (hout : h.Outward s ids) : s ∈ ids := by
  cases hout with
  | root | inner => exact List.mem_cons_self

theorem unique {ids' : List ScopeId} (hout : h.Outward s ids) (hout' : h.Outward s ids') :
    ids = ids' := by
  induction hout generalizing ids' with
  | root hf hparent =>
    cases hout' with
    | root => rfl
    | inner hf' hparent' _ =>
      cases hf.symm.trans hf'
      cases hparent.symm.trans hparent'
  | inner hf hparent _ ih =>
    cases hout' with
    | root hf' hparent' =>
      cases hf.symm.trans hf'
      cases hparent.symm.trans hparent'
    | inner hf' hparent' hrest' =>
      cases hf.symm.trans hf'
      cases hparent.symm.trans hparent'
      rw [ih hrest']

theorem lookupWithin (hout : h.Outward s ids) (hids : ids.Pairwise (· > ·)) (name : Text) {n : Nat}
    (hn : s < n) : h.lookupWithin name n s = ids.find? fun t => name ∈ h.nameSet t := by
  induction hout generalizing n with
  | @root s f hf hparent =>
    obtain ⟨n, rfl⟩ := Nat.exists_eq_add_of_lt hn
    simp only [Heap.lookupWithin, hf, hparent, Frame.binds_iff, List.find?_cons, nameSet_eq hf]
    split_ifs with hname <;> simp [hname]
  | @inner s p f ids hf hparent hrest ih =>
    obtain ⟨n, rfl⟩ := Nat.exists_eq_add_of_lt hn
    obtain ⟨hfirst, hids⟩ := List.pairwise_cons.1 hids
    have hp : p < s := hfirst p hrest.mem_self
    simp only [Heap.lookupWithin, hf, hparent, Frame.binds_iff, List.find?_cons, nameSet_eq hf]
    split_ifs with hname
    · simp [hname]
    · rw [ih hids (Nat.lt_of_lt_of_le hp (Nat.le_add_right s n))]
      simp [hname]

/-- A name is found in the first scope that binds it. -/
theorem lookup (hout : h.Outward s ids) (hids : ids.Pairwise (· > ·)) (name : Text) :
    h.lookup s name = ids.find? fun t => name ∈ h.nameSet t :=
  hout.lookupWithin hids name (Nat.lt_succ_self s)

end Outward

/-! ## Growth -/

/-- Every scope stays where it is; one with a parent keeps its names, and a root gets new ones at
most. -/
def Grows (h h' : Heap) : Prop :=
  ∀ (s : ScopeId) (f : Frame), h.frames[s]? = some f → ∃ f' : Frame, h'.frames[s]? = some f' ∧
    f'.parent = f.parent ∧ f.names ⊆ f'.names ∧ (f.parent ≠ none → f'.names = f.names)

theorem Grows.refl (h : Heap) : h.Grows h :=
  fun _ f hf => ⟨f, hf, rfl, Finset.Subset.refl _, fun _ => rfl⟩

theorem Grows.trans (hh : h.Grows h') (hh' : h'.Grows h'') : h.Grows h'' := by
  intro s f hf
  obtain ⟨f', hf', hparent, hnames, hsame⟩ := hh s f hf
  obtain ⟨f'', hf'', hparent', hnames', hsame'⟩ := hh' s f' hf'
  refine ⟨f'', hf'', hparent'.trans hparent, hnames.trans hnames', fun hinner => ?_⟩
  rw [hsame' (hparent ▸ hinner), hsame hinner]

theorem Grows.next_le (hh : h.Grows h') : h.next ≤ h'.next := by
  refine Nat.le_of_not_lt fun hlt => ?_
  obtain ⟨f', hf', -⟩ := hh h'.next h.frames[h'.next] (Array.getElem?_eq_getElem hlt)
  exact Nat.lt_irrefl _ (Array.getElem?_eq_some_iff.1 hf').1

theorem grows_push (h : Heap) (f : Frame) : h.Grows ⟨h.frames.push f⟩ := by
  intro s g hg
  have hs := (Array.getElem?_eq_some_iff.1 hg).1
  refine ⟨g, ?_, rfl, Finset.Subset.refl _, fun _ => rfl⟩
  rw [Array.getElem?_push_lt hs, ← Array.getElem?_eq_getElem hs, hg]

/-- Binding a name where it is bound, or in a root. -/
theorem grows_define {name : Text} (v : Value)
    (hs : ∀ f, h.frames[s]? = some f → f.parent ≠ none → name ∈ f.names) :
    h.Grows (h.define s name v) := by
  intro t f hf
  rw [define, Array.getElem?_modify]
  split_ifs with hst
  · subst hst
    refine ⟨f.insert name v, by rw [hf]; rfl, rfl, ?_, fun hinner => ?_⟩
    · rw [Frame.names_insert]
      exact Finset.subset_union_right
    · rw [Frame.names_insert, Finset.union_eq_right, Finset.singleton_subset_iff]
      exact hs f hf hinner
  · exact ⟨f, hf, rfl, Finset.Subset.refl _, fun _ => rfl⟩

theorem binds_of_lookupWithin {name : Text} {n : Nat} {t : ScopeId}
    (ht : h.lookupWithin name n s = some t) :
    ∃ f, h.frames[t]? = some f ∧ name ∈ f.names := by
  induction n generalizing s with
  | zero => cases ht
  | succ n ih =>
    simp only [lookupWithin] at ht
    split at ht
    · cases ht
    · rename_i f hf
      split_ifs at ht with hbinds
      · cases ht
        exact ⟨f, hf, Frame.binds_iff.1 hbinds⟩
      · split at ht
        · cases ht
        · exact ih ht

/-- An assignment only makes a heap grow. -/
theorem grows_assign {name : Text} {t : ScopeId} (v : Value) (ht : h.target? s name = some t) :
    h.Grows (h.define t name v) := by
  refine grows_define v fun f hf hinner => ?_
  simp only [target?] at ht
  split at ht
  · rename_i u hu
    cases ht
    obtain ⟨g, hg, hname⟩ := binds_of_lookupWithin hu
    cases hf.symm.trans hg
    exact hname
  · split_ifs at ht with hroot
    cases ht
    rw [parent?, hf] at hroot
    exact absurd (Option.isNone_iff_eq_none.1 hroot) hinner

theorem Outward.grows {ids : List ScopeId} (hout : h.Outward s ids) (hh : h.Grows h') :
    h'.Outward s ids := by
  induction hout with
  | root hf hparent =>
    obtain ⟨f', hf', hparent', -⟩ := hh _ _ hf
    exact .root hf' (hparent'.trans hparent)
  | inner hf hparent _ ih =>
    obtain ⟨f', hf', hparent', -⟩ := hh _ _ hf
    exact .inner hf' (hparent'.trans hparent) ih

/-- The scopes before the root keep their names. -/
theorem Outward.map_nameSet {g : ScopeId} {inner : List ScopeId}
    (hout : h.Outward s (inner ++ [g])) (hh : h.Grows h') :
    inner.map h'.nameSet = inner.map h.nameSet := by
  induction inner generalizing s with
  | nil => rfl
  | cons t inner ih =>
    rw [List.cons_append] at hout
    generalize hids : inner ++ [g] = ids at hout
    cases hout with
    | root => simp at hids
    | @inner _ p f _ hf hparent hrest =>
      subst hids
      obtain ⟨f', hf', -, -, hsame⟩ := hh t f hf
      have hinner : f.parent ≠ none := by simp [hparent]
      rw [List.map_cons, List.map_cons, nameSet_eq hf, nameSet_eq hf', hsame hinner, ih hrest]

/-! ## New scopes -/

theorem define_push (h : Heap) (f : Frame) (name : Text) (v : Value) :
    define ⟨h.frames.push f⟩ h.next name v = ⟨h.frames.push (f.insert name v)⟩ := by
  refine congrArg Heap.mk (Array.ext_getElem? fun i => ?_)
  rw [Array.getElem?_modify, Array.getElem?_push, Array.getElem?_push, next]
  by_cases hi : i = h.frames.size
  · simp [hi]
  · simp [hi, Ne.symm hi]

end Heap

namespace World

/-- A scope that binds one name. -/
theorem heap_bindIn (w : World) (s : ScopeId) (name : Text) (v : Value) :
    (w.bindIn s name v).1.heap = ⟨w.heap.frames.push ⟨some s, [(name, v)]⟩⟩ :=
  w.heap.define_push ⟨some s, []⟩ name v

theorem heap_bindParams {h : Heap} {f : Frame} (params : List Text) (args : List Value) {w : World}
    (hw : w.heap = ⟨h.frames.push f⟩) :
    ∃ f' : Frame, (bindParams h.next w params args).heap = ⟨h.frames.push f'⟩ ∧
      f'.parent = f.parent ∧ f'.names = params.toFinset ∪ f.names ∧
      ∀ b ∈ f'.bindings, b ∈ f.bindings ∨ b.2 ∈ args ∨ b.2 = .bool false := by
  induction params generalizing w f args with
  | nil => exact ⟨f, hw, rfl, by simp, fun b hb => .inl hb⟩
  | cons p ps ih =>
    have hstep : ∀ v vs, (v ∈ args ∨ v = .bool false) → vs ⊆ args → ∃ f' : Frame,
        (bindParams h.next (w.define h.next p v) ps vs).heap = ⟨h.frames.push f'⟩ ∧
        f'.parent = f.parent ∧ f'.names = (p :: ps).toFinset ∪ f.names ∧
        ∀ b ∈ f'.bindings, b ∈ f.bindings ∨ b.2 ∈ args ∨ b.2 = .bool false := by
      intro v vs hv hvs
      have hdefine : (w.define h.next p v).heap = ⟨h.frames.push (f.insert p v)⟩ := by
        rw [← h.define_push f p v, ← hw]
        rfl
      obtain ⟨f', hf', hparent, hnames, hbindings⟩ := ih vs hdefine
      refine ⟨f', hf', hparent, ?_, fun b hb => ?_⟩
      · rw [hnames, Frame.names_insert, List.toFinset_cons, Finset.insert_eq, ← Finset.union_assoc,
          Finset.union_comm _ {p}]
      · rcases hbindings b hb with hb | hb | hb
        · rcases Heap.mem_put hb with hb | hb
          · exact .inl hb
          · exact .inr (hb ▸ hv)
        · exact .inr (.inl (hvs hb))
        · exact .inr (.inr hb)
    cases args with
    | nil => exact hstep (.bool false) [] (.inr rfl) (List.Subset.refl _)
    | cons v vs => exact hstep v vs (.inl List.mem_cons_self) (List.subset_cons_self v vs)

/-- The scope of a call binds the parameters, each to an argument or to false. -/
theorem heap_enter (w : World) (c : Closure) (args : List Value) :
    ∃ f : Frame, (w.enter c args).1.heap = ⟨w.heap.frames.push f⟩ ∧ f.parent = some c.scope ∧
      f.names = c.params.toFinset ∧ ∀ b ∈ f.bindings, b.2 ∈ args ∨ b.2 = .bool false := by
  obtain ⟨f, hf, hparent, hnames, hbindings⟩ :=
    heap_bindParams (h := w.heap) (f := ⟨some c.scope, []⟩) c.params args
      (w := { w with heap := w.heap.extend c.scope }) rfl
  refine ⟨f, hf, hparent, hnames.trans (Finset.union_empty _), fun b hb => ?_⟩
  rcases hbindings b hb with hb | hb
  · cases hb
  · exact hb

end World

end Mycel
