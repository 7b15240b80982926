import Mathlib.Data.List.Perm.Basic
import Mathlib.Tactic.Common

/-!
# Trees with ordered children

A tree is searched in preorder, a node before its children and a child's subtree before the next
child. The first subtree that is found can be changed where it stands, and so can its parent. Where
only one subtree can be found, removing the children that are found removes it and nothing else.
-/

namespace GatoCore.Lib

inductive RoseTree (α : Type) where
  | node (value : α) (children : List (RoseTree α))

namespace RoseTree

variable {α : Type}

def value : RoseTree α → α
  | node a _ => a

def children : RoseTree α → List (RoseTree α)
  | node _ ts => ts

@[simp] theorem value_node (a : α) (ts : List (RoseTree α)) : (node a ts).value = a := rfl

@[simp] theorem children_node (a : α) (ts : List (RoseTree α)) : (node a ts).children = ts := rfl

mutual
/-- The subtrees in preorder. -/
def subtrees : RoseTree α → List (RoseTree α)
  | node a ts => node a ts :: subtreesAll ts
def subtreesAll : List (RoseTree α) → List (RoseTree α)
  | [] => []
  | t :: ts => subtrees t ++ subtreesAll ts
end

/-- The values in preorder. -/
def values (t : RoseTree α) : List α := t.subtrees.map value

def valuesAll (ts : List (RoseTree α)) : List α := (subtreesAll ts).map value

@[simp] theorem values_node (a : α) (ts : List (RoseTree α)) :
    (node a ts).values = a :: valuesAll ts := by
  rw [values, subtrees, List.map_cons, value, valuesAll]

@[simp] theorem valuesAll_nil : valuesAll ([] : List (RoseTree α)) = [] := by
  rw [valuesAll, subtreesAll, List.map_nil]

@[simp] theorem valuesAll_cons (t : RoseTree α) (ts : List (RoseTree α)) :
    valuesAll (t :: ts) = t.values ++ valuesAll ts := by
  rw [valuesAll, subtreesAll, List.map_append, values, valuesAll]

theorem values_eq (t : RoseTree α) : t.values = t.value :: valuesAll t.children := by
  cases t
  rw [values_node, value_node, children_node]

theorem valuesAll_append (ts ts' : List (RoseTree α)) :
    valuesAll (ts ++ ts') = valuesAll ts ++ valuesAll ts' := by
  induction ts with
  | nil => rw [List.nil_append, valuesAll_nil, List.nil_append]
  | cons t ts ih => rw [List.cons_append, valuesAll_cons, ih, valuesAll_cons, List.append_assoc]

section Search

variable (p : α → Bool)

mutual
/-- The first subtree whose value meets a condition. -/
def find? : RoseTree α → Option (RoseTree α)
  | node a ts => if p a then some (node a ts) else findAll? ts
def findAll? : List (RoseTree α) → Option (RoseTree α)
  | [] => none
  | t :: ts => (find? t).or (findAll? ts)
end

mutual
/-- The parent of that subtree; the root has the parent `up`. -/
def parentOf? (up : Option (RoseTree α)) : RoseTree α → Option (RoseTree α)
  | node a ts => if p a then up else parentIn? (node a ts) ts
def parentIn? (up : RoseTree α) : List (RoseTree α) → Option (RoseTree α)
  | [] => none
  | t :: ts => (parentOf? (some up) t).or (parentIn? up ts)
end

variable (g : RoseTree α → RoseTree α)

mutual
/-- That subtree is changed. -/
def modify? : RoseTree α → Option (RoseTree α)
  | node a ts => if p a then some (g (node a ts)) else (modifyAll? ts).map (node a)
def modifyAll? : List (RoseTree α) → Option (List (RoseTree α))
  | [] => none
  | t :: ts =>
      match modify? t with
      | some t' => some (t' :: ts)
      | none => (modifyAll? ts).map (t :: ·)
end

mutual
/-- The parent of that subtree is changed; the root is not looked at. -/
def modifyParent? : RoseTree α → Option (RoseTree α)
  | node a ts =>
      match modifyParentAll? ts with
      | some none => some (g (node a ts))
      | some (some ts') => some (node a ts')
      | none => none
/-- `some none` where one of the trees is the subtree itself. -/
def modifyParentAll? : List (RoseTree α) → Option (Option (List (RoseTree α)))
  | [] => none
  | t :: ts =>
      if p t.value then some none
      else
        match modifyParent? t with
        | some t' => some (some (t' :: ts))
        | none => (modifyParentAll? ts).map (Option.map (t :: ·))
end

mutual
/-- The tree without the subtrees below the root whose values meet the condition. -/
def erase : RoseTree α → RoseTree α
  | node a ts => node a (eraseAll ts)
def eraseAll : List (RoseTree α) → List (RoseTree α)
  | [] => []
  | t :: ts => if p t.value then eraseAll ts else erase t :: eraseAll ts
end

/-- The children whose values meet the condition are removed. -/
def prune : RoseTree α → RoseTree α
  | node a ts => node a (ts.filter fun t => !p t.value)

def push (child : RoseTree α) : RoseTree α → RoseTree α
  | node a ts => node a (ts ++ [child])

end Search

variable {p : α → Bool} {g : RoseTree α → RoseTree α}

/-! ## What is found -/

mutual
theorem find?_eq (p : α → Bool) :
    ∀ t : RoseTree α, t.find? p = t.subtrees.find? fun s => p s.value
  | node a ts => by
      rw [find?, subtrees, List.find?_cons, value_node, findAll?_eq p ts]
      cases p a <;> rfl

theorem findAll?_eq (p : α → Bool) :
    ∀ ts : List (RoseTree α), findAll? p ts = (subtreesAll ts).find? fun s => p s.value
  | [] => by rw [findAll?, subtreesAll, List.find?_nil]
  | t :: ts => by rw [findAll?, subtreesAll, List.find?_append, find?_eq p t, findAll?_eq p ts]
end

theorem self_mem_subtrees (t : RoseTree α) : t ∈ t.subtrees := by
  cases t
  rw [subtrees]
  exact List.mem_cons_self

mutual
/-- Where no value meets the condition there is no parent. -/
theorem parentOf?_eq_none {up : Option (RoseTree α)} :
    ∀ {t : RoseTree α}, (∀ a ∈ t.values, p a = false) → parentOf? p up t = none
  | node a ts, h => by
      rw [values_node] at h
      obtain ⟨ha, hts⟩ := List.forall_mem_cons.mp h
      rw [parentOf?, if_neg (by simp [ha]), parentIn?_eq_none hts]

theorem parentIn?_eq_none {up : RoseTree α} :
    ∀ {ts : List (RoseTree α)}, (∀ a ∈ valuesAll ts, p a = false) → parentIn? p up ts = none
  | [], _ => by rw [parentIn?]
  | t :: ts, h => by
      rw [valuesAll_cons] at h
      rw [parentIn?, parentOf?_eq_none fun a ha => h a (List.mem_append_left _ ha),
        parentIn?_eq_none fun a ha => h a (List.mem_append_right _ ha), Option.none_or]
end

/-! ## What is changed -/

/-- A change that adds values to what it changes. -/
def Adds (extra : List α) (g : RoseTree α → RoseTree α) : Prop :=
  ∀ t : RoseTree α, List.Perm (g t).values (extra ++ t.values)

variable {extra : List α}

mutual
/-- What a change adds to a subtree it adds to the tree. -/
theorem values_modify? (hg : Adds extra g) :
    ∀ {t t' : RoseTree α}, t.modify? p g = some t' → List.Perm t'.values (extra ++ t.values)
  | node a ts, t', h => by
      rw [modify?] at h
      split_ifs at h with ha
      · obtain rfl := Option.some.inj h
        exact hg (node a ts)
      · obtain ⟨ts', hts, rfl⟩ := Option.map_eq_some_iff.mp h
        rw [values_node, values_node]
        exact ((valuesAll_modifyAll? hg hts).cons a).trans List.perm_middle.symm

theorem valuesAll_modifyAll? (hg : Adds extra g) :
    ∀ {ts ts' : List (RoseTree α)}, modifyAll? p g ts = some ts' →
      List.Perm (valuesAll ts') (extra ++ valuesAll ts)
  | [], ts', h => by
      rw [modifyAll?] at h
      cases h
  | t :: ts, ts', h => by
      rw [modifyAll?] at h
      rw [valuesAll_cons]
      cases ht : t.modify? p g with
      | some t' =>
          rw [ht] at h
          obtain rfl := Option.some.inj h
          rw [valuesAll_cons, ← List.append_assoc]
          exact (values_modify? hg ht).append_right _
      | none =>
          rw [ht] at h
          obtain ⟨ts', hts, rfl⟩ := Option.map_eq_some_iff.mp h
          rw [valuesAll_cons]
          refine ((valuesAll_modifyAll? hg hts).append_left t.values).trans ?_
          rw [← List.append_assoc, ← List.append_assoc]
          exact List.perm_append_comm.append_right _
end

mutual
theorem values_modifyParent? (hg : Adds extra g) :
    ∀ {t t' : RoseTree α}, t.modifyParent? p g = some t' → List.Perm t'.values (extra ++ t.values)
  | node a ts, t', h => by
      rw [modifyParent?] at h
      cases hts : modifyParentAll? p g ts with
      | none =>
          rw [hts] at h
          cases h
      | some found =>
          rw [hts] at h
          cases found with
          | none =>
              obtain rfl := Option.some.inj h
              exact hg (node a ts)
          | some ts' =>
              obtain rfl := Option.some.inj h
              rw [values_node, values_node]
              exact ((valuesAll_modifyParentAll? hg hts).cons a).trans List.perm_middle.symm

theorem valuesAll_modifyParentAll? (hg : Adds extra g) :
    ∀ {ts ts' : List (RoseTree α)}, modifyParentAll? p g ts = some (some ts') →
      List.Perm (valuesAll ts') (extra ++ valuesAll ts)
  | [], ts', h => by
      rw [modifyParentAll?] at h
      cases h
  | t :: ts, ts', h => by
      rw [modifyParentAll?] at h
      rw [valuesAll_cons]
      split_ifs at h
      · cases Option.some.inj h
      · cases ht : t.modifyParent? p g with
        | some t' =>
            rw [ht] at h
            obtain rfl := Option.some.inj (Option.some.inj h)
            rw [valuesAll_cons, ← List.append_assoc]
            exact (values_modifyParent? hg ht).append_right _
        | none =>
            rw [ht] at h
            obtain ⟨found, hts, hfound⟩ := Option.map_eq_some_iff.mp h
            obtain ⟨ts', rfl, rfl⟩ := Option.map_eq_some_iff.mp hfound
            rw [valuesAll_cons]
            refine ((valuesAll_modifyParentAll? hg hts).append_left t.values).trans ?_
            rw [← List.append_assoc, ← List.append_assoc]
            exact List.perm_append_comm.append_right _
end

mutual
/-- A change that keeps what is read off the values of a subtree keeps it for the tree. -/
theorem map_values_modify? {β : Type} {f : α → β}
    (hg : ∀ t : RoseTree α, (g t).values.map f = t.values.map f) :
    ∀ {t t' : RoseTree α}, t.modify? p g = some t' → t'.values.map f = t.values.map f
  | node a ts, t', h => by
      rw [modify?] at h
      split_ifs at h with ha
      · obtain rfl := Option.some.inj h
        exact hg (node a ts)
      · obtain ⟨ts', hts, rfl⟩ := Option.map_eq_some_iff.mp h
        rw [values_node, values_node, List.map_cons, List.map_cons,
          map_valuesAll_modifyAll? hg hts]

theorem map_valuesAll_modifyAll? {β : Type} {f : α → β}
    (hg : ∀ t : RoseTree α, (g t).values.map f = t.values.map f) :
    ∀ {ts ts' : List (RoseTree α)}, modifyAll? p g ts = some ts' →
      (valuesAll ts').map f = (valuesAll ts).map f
  | [], ts', h => by
      rw [modifyAll?] at h
      cases h
  | t :: ts, ts', h => by
      rw [modifyAll?] at h
      rw [valuesAll_cons, List.map_append]
      cases ht : t.modify? p g with
      | some t' =>
          rw [ht] at h
          obtain rfl := Option.some.inj h
          rw [valuesAll_cons, List.map_append, map_values_modify? hg ht]
      | none =>
          rw [ht] at h
          obtain ⟨ts', hts, rfl⟩ := Option.map_eq_some_iff.mp h
          rw [valuesAll_cons, List.map_append, map_valuesAll_modifyAll? hg hts]
end

theorem find?_isSome (p : α → Bool) (t : RoseTree α) : (t.find? p).isSome = t.values.any p := by
  rw [find?_eq, List.isSome_find?, values, List.any_map]
  rfl

mutual
theorem modify?_eq_none :
    ∀ {t : RoseTree α}, t.modify? p g = none ↔ t.find? p = none
  | node a ts => by
      rw [modify?, find?]
      split_ifs
      · simp
      · rw [Option.map_eq_none_iff, modifyAll?_eq_none]

theorem modifyAll?_eq_none :
    ∀ {ts : List (RoseTree α)}, modifyAll? p g ts = none ↔ findAll? p ts = none
  | [] => by rw [modifyAll?, findAll?]; simp
  | t :: ts => by
      have ht : t.modify? p g = none ↔ t.find? p = none := modify?_eq_none
      have hts : modifyAll? p g ts = none ↔ findAll? p ts = none := modifyAll?_eq_none
      rw [modifyAll?, findAll?, Option.or_eq_none_iff, ← ht, ← hts]
      cases t.modify? p g <;> simp
end

mutual
/-- The parent is changed where the subtree is below the root. -/
theorem modifyParent?_eq_none :
    ∀ {t : RoseTree α}, t.modifyParent? p g = none ↔ ∀ a ∈ valuesAll t.children, p a = false
  | node a ts => by
      have hts : modifyParentAll? p g ts = none ↔ ∀ a ∈ valuesAll ts, p a = false :=
        modifyParentAll?_eq_none
      rw [modifyParent?, children_node, ← hts]
      cases modifyParentAll? p g ts with
      | none => simp
      | some found => cases found <;> simp

theorem modifyParentAll?_eq_none :
    ∀ {ts : List (RoseTree α)}, modifyParentAll? p g ts = none ↔ ∀ a ∈ valuesAll ts, p a = false
  | [] => by rw [modifyParentAll?]; simp
  | node a ts :: rest => by
      have hsub : (node a ts).modifyParent? p g = none ↔ ∀ b ∈ valuesAll ts, p b = false :=
        modifyParent?_eq_none
      have hrest : modifyParentAll? p g rest = none ↔ ∀ b ∈ valuesAll rest, p b = false :=
        modifyParentAll?_eq_none
      rw [modifyParentAll?, valuesAll_cons, List.forall_mem_append, values_node,
        List.forall_mem_cons, value_node, ← hsub, ← hrest]
      cases p a with
      | true => simp
      | false => cases (node a ts).modifyParent? p g <;> simp
end

/-- Where no parent is changed there is none. -/
theorem parentOf?_of_modifyParent? {up : Option (RoseTree α)} {t : RoseTree α}
    (ht : p t.value = false) (h : t.modifyParent? p g = none) : t.parentOf? p up = none := by
  apply parentOf?_eq_none
  rw [values_eq]
  exact List.forall_mem_cons.mpr ⟨ht, modifyParent?_eq_none.mp h⟩

/-- The subtree is one of the trees themselves. -/
theorem parentIn?_of_modifyParentAll? {up : RoseTree α} :
    ∀ {ts : List (RoseTree α)}, modifyParentAll? p g ts = some none →
      parentIn? p up ts = some up
  | [], h => by
      rw [modifyParentAll?] at h
      cases h
  | t :: ts, h => by
      rw [modifyParentAll?] at h
      rw [parentIn?]
      split_ifs at h with ht
      · cases t
        rw [value_node] at ht
        rw [parentOf?, if_pos ht, Option.some_or]
      · cases hmodify : t.modifyParent? p g with
        | some t' =>
            rw [hmodify] at h
            cases Option.some.inj h
        | none =>
            rw [hmodify] at h
            obtain ⟨found, hts, hfound⟩ := Option.map_eq_some_iff.mp h
            obtain rfl := Option.map_eq_none_iff.mp hfound
            rw [parentOf?_of_modifyParent? (Bool.not_eq_true _ ▸ ht) hmodify, Option.none_or]
            exact parentIn?_of_modifyParentAll? hts

mutual
/-- A change that keeps the value of the parent leaves it in the tree. -/
theorem exists_parent_mem (hg : ∀ t : RoseTree α, (g t).value = t.value)
    {up : Option (RoseTree α)} :
    ∀ {t t' : RoseTree α}, p t.value = false → t.modifyParent? p g = some t' →
      ∃ parent, t.parentOf? p up = some parent ∧ parent.value ∈ t'.values
  | node a ts, t', ha, h => by
      rw [value_node] at ha
      rw [modifyParent?] at h
      rw [parentOf?, if_neg (by simp [ha])]
      cases hts : modifyParentAll? p g ts with
      | none =>
          rw [hts] at h
          cases h
      | some found =>
          rw [hts] at h
          cases found with
          | none =>
              obtain rfl := Option.some.inj h
              refine ⟨node a ts, parentIn?_of_modifyParentAll? hts, ?_⟩
              rw [values_eq, hg]
              exact List.mem_cons_self
          | some ts' =>
              obtain rfl := Option.some.inj h
              obtain ⟨parent, hparent, hmem⟩ := exists_parentIn_mem hg hts
              refine ⟨parent, hparent, ?_⟩
              rw [values_node]
              exact List.mem_cons_of_mem a hmem

theorem exists_parentIn_mem (hg : ∀ t : RoseTree α, (g t).value = t.value) {up : RoseTree α} :
    ∀ {ts ts' : List (RoseTree α)}, modifyParentAll? p g ts = some (some ts') →
      ∃ parent, parentIn? p up ts = some parent ∧ parent.value ∈ valuesAll ts'
  | [], ts', h => by
      rw [modifyParentAll?] at h
      cases h
  | t :: ts, ts', h => by
      rw [modifyParentAll?] at h
      rw [parentIn?]
      split_ifs at h with ht
      · cases Option.some.inj h
      · rw [Bool.not_eq_true] at ht
        cases hmodify : t.modifyParent? p g with
        | some t' =>
            rw [hmodify] at h
            obtain rfl := Option.some.inj (Option.some.inj h)
            obtain ⟨parent, hparent, hmem⟩ := exists_parent_mem hg ht hmodify
            rw [hparent, valuesAll_cons]
            exact ⟨parent, rfl, List.mem_append_left _ hmem⟩
        | none =>
            rw [hmodify] at h
            obtain ⟨found, hts, hfound⟩ := Option.map_eq_some_iff.mp h
            obtain ⟨ts', rfl, rfl⟩ := Option.map_eq_some_iff.mp hfound
            obtain ⟨parent, hparent, hmem⟩ := exists_parentIn_mem hg hts
            rw [parentOf?_of_modifyParent? ht hmodify, Option.none_or, hparent, valuesAll_cons]
            exact ⟨parent, rfl, List.mem_append_right _ hmem⟩
end

theorem values_push (child t : RoseTree α) : (push child t).values = t.values ++ child.values := by
  cases t with
  | node a ts =>
      rw [push, values_node, valuesAll_append, valuesAll_cons, valuesAll_nil, List.append_nil,
        values_node, List.cons_append]

theorem adds_push (child : RoseTree α) : Adds child.values (push child) := by
  intro t
  rw [values_push]
  exact List.perm_append_comm

/-! ## What can be found once -/

theorem countP_eq_zero {l : List α} (h : l.countP p = 0) : ∀ a ∈ l, p a = false := by
  intro a ha
  simpa using List.countP_eq_zero.mp h a ha

theorem countP_pos {l : List α} {a : α} (ha : a ∈ l) (hp : p a = true) : 0 < l.countP p :=
  List.countP_pos_iff.mpr ⟨a, ha, hp⟩

mutual
/-- The values of a subtree are among those of the tree, in their order. -/
theorem values_sublist {sub : RoseTree α} :
    ∀ {t : RoseTree α}, sub ∈ t.subtrees → List.Sublist sub.values t.values
  | node a ts, h => by
      rw [subtrees] at h
      rcases List.mem_cons.mp h with rfl | hmem
      · exact List.Sublist.refl _
      · rw [values_node]
        exact (values_sublistAll hmem).trans (List.sublist_cons_self _ _)

theorem values_sublistAll {sub : RoseTree α} :
    ∀ {ts : List (RoseTree α)}, sub ∈ subtreesAll ts → List.Sublist sub.values (valuesAll ts)
  | [], h => by
      rw [subtreesAll] at h
      cases h
  | t :: ts, h => by
      rw [subtreesAll] at h
      rw [valuesAll_cons]
      rcases List.mem_append.mp h with hmem | hmem
      · exact (values_sublist hmem).trans (List.sublist_append_left _ _)
      · exact (values_sublistAll hmem).trans (List.sublist_append_right _ _)
end

mutual
/-- A subtree other than the tree has a parent. -/
theorem exists_parent {sub : RoseTree α} :
    ∀ {t : RoseTree α}, sub ∈ t.subtrees → sub = t ∨ ∃ up ∈ t.subtrees, sub ∈ up.children
  | node a ts, h => by
      rw [subtrees] at h
      rcases List.mem_cons.mp h with heq | hmem
      · exact .inl heq
      · refine .inr ?_
        rw [subtrees]
        rcases exists_parentAll hmem with hchild | ⟨up, hup, hchild⟩
        · exact ⟨node a ts, List.mem_cons_self, hchild⟩
        · exact ⟨up, List.mem_cons_of_mem _ hup, hchild⟩

theorem exists_parentAll {sub : RoseTree α} :
    ∀ {ts : List (RoseTree α)}, sub ∈ subtreesAll ts →
      sub ∈ ts ∨ ∃ up ∈ subtreesAll ts, sub ∈ up.children
  | [], h => by
      rw [subtreesAll] at h
      cases h
  | t :: ts, h => by
      rw [subtreesAll] at h ⊢
      rcases List.mem_append.mp h with hmem | hmem
      · rcases exists_parent hmem with rfl | ⟨up, hup, hchild⟩
        · exact .inl List.mem_cons_self
        · exact .inr ⟨up, List.mem_append_left _ hup, hchild⟩
      · rcases exists_parentAll hmem with hin | ⟨up, hup, hchild⟩
        · exact .inl (List.mem_cons_of_mem _ hin)
        · exact .inr ⟨up, List.mem_append_right _ hup, hchild⟩
end

theorem find?_eq_some_of_once {l : List α} {a : α} (ha : a ∈ l) (hp : p a = true)
    (honce : l.countP p ≤ 1) : l.find? p = some a := by
  induction l with
  | nil => cases ha
  | cons b l ih =>
      rw [List.countP_cons] at honce
      by_cases hb : p b = true
      · rw [if_pos hb] at honce
        rw [List.find?_cons_of_pos hb]
        rcases List.mem_cons.mp ha with rfl | hmem
        · rfl
        · have hpos := countP_pos hmem hp
          omega
      · rw [if_neg hb] at honce
        rw [List.find?_cons_of_neg hb]
        refine ih ((List.mem_cons.mp ha).resolve_left ?_) honce
        rintro rfl
        exact hb hp

/-- What alone meets the condition is found. -/
theorem find?_of_mem {t sub : RoseTree α} (hsub : sub ∈ t.subtrees) (hp : p sub.value = true)
    (honce : t.values.countP p ≤ 1) : t.find? p = some sub := by
  rw [values, List.countP_map] at honce
  rw [find?_eq]
  exact find?_eq_some_of_once hsub hp honce

theorem value_mem_valuesAll {c : RoseTree α} {ts : List (RoseTree α)} (h : c ∈ ts) :
    c.value ∈ valuesAll ts := by
  induction ts with
  | nil => cases h
  | cons t ts ih =>
      rw [valuesAll_cons]
      rcases List.mem_cons.mp h with rfl | hmem
      · exact List.mem_append_left _ (List.mem_map_of_mem (self_mem_subtrees c))
      · exact List.mem_append_right _ (ih hmem)

mutual
/-- The value of a child stands after that of the root. -/
theorem child_value_mem {sub c : RoseTree α} (hc : c ∈ sub.children) :
    ∀ {t : RoseTree α}, sub ∈ t.subtrees → c.value ∈ valuesAll t.children
  | node a ts, h => by
      rw [subtrees] at h
      rw [children_node]
      rcases List.mem_cons.mp h with rfl | hmem
      · exact value_mem_valuesAll hc
      · exact child_value_memAll hc hmem

theorem child_value_memAll {sub c : RoseTree α} (hc : c ∈ sub.children) :
    ∀ {ts : List (RoseTree α)}, sub ∈ subtreesAll ts → c.value ∈ valuesAll ts
  | [], h => by
      rw [subtreesAll] at h
      cases h
  | t :: ts, h => by
      rw [subtreesAll] at h
      rw [valuesAll_cons]
      rcases List.mem_append.mp h with hmem | hmem
      · have hvalue := child_value_mem hc hmem
        cases t with
        | node a us =>
            rw [values_node]
            exact List.mem_append_left _ (List.mem_cons_of_mem _ hvalue)
      · exact List.mem_append_right _ (child_value_memAll hc hmem)
end

theorem parentIn?_of_mem {up c : RoseTree α} {ts : List (RoseTree α)} (hc : c ∈ ts)
    (hp : p c.value = true) (honce : (valuesAll ts).countP p ≤ 1) :
    parentIn? p up ts = some up := by
  induction ts with
  | nil => cases hc
  | cons t ts ih =>
      rw [valuesAll_cons, List.countP_append] at honce
      rw [parentIn?]
      rcases List.mem_cons.mp hc with rfl | hmem
      · cases c with
        | node a us =>
            rw [value_node] at hp
            rw [parentOf?, if_pos hp, Option.some_or]
      · have hrest := countP_pos (value_mem_valuesAll hmem) hp
        rw [parentOf?_eq_none (countP_eq_zero (by omega)), Option.none_or]
        exact ih hmem (by omega)

mutual
/-- A child that alone meets the condition has the parent it stands below. -/
theorem parentOf?_child {sub c : RoseTree α} (hc : c ∈ sub.children) (hp : p c.value = true) :
    ∀ {t : RoseTree α} {up : Option (RoseTree α)}, sub ∈ t.subtrees → t.values.countP p ≤ 1 →
      parentOf? p up t = some sub
  | node a ts, up, h, honce => by
      have hmem : c.value ∈ valuesAll ts := child_value_mem hc h
      have hpos := countP_pos hmem hp
      rw [values_node, List.countP_cons] at honce
      have ha : ¬ p a = true := by
        intro ha
        rw [if_pos ha] at honce
        omega
      rw [if_neg ha] at honce
      rw [subtrees] at h
      rw [parentOf?, if_neg ha]
      rcases List.mem_cons.mp h with rfl | hbelow
      · exact parentIn?_of_mem hc hp honce
      · exact parentIn?_child hc hp hbelow honce

theorem parentIn?_child {sub c : RoseTree α} (hc : c ∈ sub.children) (hp : p c.value = true) :
    ∀ {ts : List (RoseTree α)} {up : RoseTree α}, sub ∈ subtreesAll ts → (valuesAll ts).countP p ≤
      1 →
      parentIn? p up ts = some sub
  | [], up, h, _ => by
      rw [subtreesAll] at h
      cases h
  | t :: ts, up, h, honce => by
      rw [subtreesAll] at h
      rw [valuesAll_cons, List.countP_append] at honce
      rw [parentIn?]
      rcases List.mem_append.mp h with hmem | hmem
      · rw [parentOf?_child hc hp hmem (by omega), Option.some_or]
      · have hpos := countP_pos (child_value_memAll hc hmem) hp
        rw [parentOf?_eq_none (countP_eq_zero (by omega)), Option.none_or]
        exact parentIn?_child hc hp hmem (by omega)
end

/-! ## What is removed -/

theorem eraseAll_cons {t : RoseTree α} {ts : List (RoseTree α)} (h : p t.value = false) :
    eraseAll p (t :: ts) = erase p t :: eraseAll p ts := by
  rw [eraseAll, if_neg (by simp [h])]

mutual
/-- Nothing is removed where no value meets the condition. -/
theorem erase_eq_self : ∀ {t : RoseTree α}, (∀ a ∈ valuesAll t.children, p a = false) →
    erase p t = t
  | node a ts, h => by
      rw [children_node] at h
      rw [erase, eraseAll_eq_self h]

theorem eraseAll_eq_self :
    ∀ {ts : List (RoseTree α)}, (∀ a ∈ valuesAll ts, p a = false) → eraseAll p ts = ts
  | [], _ => by rw [eraseAll]
  | node a us :: ts, h => by
      rw [valuesAll_cons, values_node, List.forall_mem_append, List.forall_mem_cons] at h
      obtain ⟨⟨ha, hus⟩, hts⟩ := h
      have hsub : erase p (node a us) = node a us := erase_eq_self hus
      rw [eraseAll_cons ha, hsub, eraseAll_eq_self hts]
end

theorem filter_eq_self_of_valuesAll {ts : List (RoseTree α)} (h : ∀ a ∈ valuesAll ts, p a = false) :
    ts.filter (fun t => !p t.value) = ts := by
  refine List.filter_eq_self.mpr fun t ht => ?_
  rw [h _ (value_mem_valuesAll ht)]
  rfl

mutual
/-- Where one subtree below the root can be found, removing it from its parent is all that
`erase` does. -/
theorem modifyParent?_prune :
    ∀ {t : RoseTree α}, (valuesAll t.children).countP p = 1 →
      t.modifyParent? p (prune p) = some (t.erase p)
  | node a ts, h => by
      rw [children_node] at h
      rw [modifyParent?, erase]
      rcases modifyParentAll?_prune h with ⟨hfound, hfilter⟩ | hfound
      · rw [hfound, ← hfilter, prune]
      · rw [hfound]

theorem modifyParentAll?_prune :
    ∀ {ts : List (RoseTree α)}, (valuesAll ts).countP p = 1 →
      (modifyParentAll? p (prune p) ts = some none ∧
          ts.filter (fun t => !p t.value) = eraseAll p ts) ∨
        modifyParentAll? p (prune p) ts = some (some (eraseAll p ts))
  | [], h => by
      rw [valuesAll_nil, List.countP_nil] at h
      cases h
  | node a us :: ts, h => by
      rw [valuesAll_cons, List.countP_append, values_node, List.countP_cons] at h
      rw [modifyParentAll?, value_node]
      by_cases ha : p a = true
      · rw [if_pos ha] at h
        have hts : ∀ b ∈ valuesAll ts, p b = false := countP_eq_zero (by omega)
        refine .inl ⟨if_pos ha, ?_⟩
        rw [eraseAll, value_node, if_pos ha, List.filter_cons_of_neg (by simp [ha]),
          filter_eq_self_of_valuesAll hts, eraseAll_eq_self hts]
      · rw [if_neg ha] at h
        have ha' : p a = false := by simpa using ha
        rw [if_neg ha, eraseAll_cons ha']
        by_cases hus : (valuesAll us).countP p = 0
        · have hnone : (node a us).modifyParent? p (prune p) = none :=
            modifyParent?_eq_none.mpr (countP_eq_zero hus)
          have hself : erase p (node a us) = node a us := erase_eq_self (countP_eq_zero hus)
          rw [hnone, hself,
            List.filter_cons_of_pos (by simp [ha'])]
          have hrest : (valuesAll ts).countP p = 1 := by omega
          rcases modifyParentAll?_prune hrest with ⟨hfound, hfilter⟩ | hfound
          · exact .inl ⟨by rw [hfound]; rfl, by rw [hfilter]⟩
          · exact .inr (by rw [hfound]; rfl)
        · have hsub : (node a us).modifyParent? p (prune p) = some ((node a us).erase p) :=
            modifyParent?_prune (show (valuesAll us).countP p = 1 by omega)
          rw [hsub, eraseAll_eq_self (countP_eq_zero (show (valuesAll ts).countP p = 0 by omega))]
          exact .inr rfl
end

mutual
/-- The values of what is found stand together, and the others are left. -/
theorem values_erase :
    ∀ {t sub : RoseTree α}, p t.value = false → t.find? p = some sub → t.values.countP p = 1 →
      ∃ pre post, t.values = pre ++ sub.values ++ post ∧ (t.erase p).values = pre ++ post
  | node a ts, sub, ha, hfind, honce => by
      rw [value_node] at ha
      rw [find?, if_neg (by simp [ha])] at hfind
      rw [values_node, List.countP_cons, if_neg (by simp [ha])] at honce
      obtain ⟨pre, post, hvalues, herase⟩ := valuesAll_eraseAll hfind honce
      refine ⟨a :: pre, post, ?_, ?_⟩
      · rw [values_node, hvalues]
        simp
      · rw [erase, values_node, herase, List.cons_append]

theorem valuesAll_eraseAll :
    ∀ {ts : List (RoseTree α)} {sub : RoseTree α}, findAll? p ts = some sub →
      (valuesAll ts).countP p = 1 →
      ∃ pre post, valuesAll ts = pre ++ sub.values ++ post ∧
        valuesAll (eraseAll p ts) = pre ++ post
  | [], sub, hfind, _ => by
      rw [findAll?] at hfind
      cases hfind
  | node a us :: ts, sub, hfind, honce => by
      rw [valuesAll_cons, List.countP_append] at honce
      rw [findAll?] at hfind
      rw [valuesAll_cons]
      by_cases ha : p a = true
      -- the head itself matches: it is the one match, and the tail stays
      · have hsub : (node a us).find? p = some (node a us) := by rw [find?, if_pos ha]
        rw [hsub, Option.some_or] at hfind
        obtain rfl := Option.some.inj hfind
        have hpos : 0 < (node a us).values.countP p :=
          countP_pos (List.mem_map_of_mem (self_mem_subtrees _)) ha
        refine ⟨[], valuesAll ts, by simp, ?_⟩
        rw [eraseAll, value_node, if_pos ha, List.nil_append,
          eraseAll_eq_self (countP_eq_zero (by omega))]
      · have ha' : p a = false := by simpa using ha
        rw [eraseAll_cons ha', valuesAll_cons]
        cases hsub : (node a us).find? p with
        | some found =>
            rw [hsub, Option.some_or] at hfind
            obtain rfl := Option.some.inj hfind
            have hpos : 0 < (node a us).values.countP p := by
              rw [find?_eq] at hsub
              have hp := List.find?_some hsub
              exact countP_pos (List.mem_map_of_mem (List.mem_of_find?_eq_some hsub)) hp
            have hroot : p (node a us).value = false := ha'
            obtain ⟨pre, post, hvalues, herase⟩ := values_erase hroot hsub (by omega)
            refine ⟨pre, post ++ valuesAll ts, ?_, ?_⟩
            · rw [hvalues]
              simp
            · rw [herase, eraseAll_eq_self (countP_eq_zero (by omega)), List.append_assoc]
        | none =>
            rw [hsub, Option.none_or] at hfind
            have hnone : ∀ b ∈ (node a us).values, p b = false := by
              intro b hb
              obtain ⟨s, hs, rfl⟩ := List.mem_map.mp hb
              rw [find?_eq, List.find?_eq_none] at hsub
              simpa using hsub s hs
            have hzero : (node a us).values.countP p = 0 :=
              List.countP_eq_zero.mpr fun b hb => by simp [hnone b hb]
            obtain ⟨pre, post, hvalues, herase⟩ := valuesAll_eraseAll hfind (by omega)
            rw [values_node, List.forall_mem_cons] at hnone
            refine ⟨(node a us).values ++ pre, post, ?_, ?_⟩
            · rw [hvalues]
              simp
            · have hself : erase p (node a us) = node a us := erase_eq_self hnone.2
              rw [hself, herase, List.append_assoc]
end

end RoseTree

end GatoCore.Lib
