import Mathlib.Data.List.Forall2
import Mathlib.Tactic.Common

/-!
# Lists

Elements and those before them, code run for each element, and lists of verdicts.
-/

namespace GatoCore.Lib

/-- What is said of every element and of those before it, said of the first one and of the rest. -/
theorem forall_split_cons {α : Type} {P : List α → α → Prop} {a : α} {l : List α} :
    (∀ pre x post, a :: l = pre ++ x :: post → P pre x) ↔
      P [] a ∧ ∀ pre x post, l = pre ++ x :: post → P (a :: pre) x := by
  constructor
  · intro h
    refine ⟨h [] a l rfl, ?_⟩
    intro pre x post hl
    exact h (a :: pre) x post (by rw [hl, List.cons_append])
  · rintro ⟨hhead, htail⟩ pre x post hl
    cases pre with
    | nil =>
        obtain ⟨rfl, -⟩ := List.cons.inj hl
        exact hhead
    | cons b pre =>
        obtain ⟨rfl, hrest⟩ := List.cons.inj hl
        exact htail pre x post hrest

theorem forall_split_nil {α : Type} {P : List α → α → Prop} :
    ∀ pre x post, ([] : List α) = pre ++ x :: post → P pre x := by
  intro pre x post hl
  simp at hl

/-- What is said of every element of two lists in a row. -/
theorem forall_split_append {α : Type} {P : List α → α → Prop} {l m : List α} :
    (∀ pre x post, l ++ m = pre ++ x :: post → P pre x) ↔
      (∀ pre x post, l = pre ++ x :: post → P pre x) ∧
        ∀ pre x post, m = pre ++ x :: post → P (l ++ pre) x := by
  induction l generalizing P with
  | nil => simp
  | cons a l ih =>
      rw [List.cons_append, forall_split_cons, forall_split_cons, ih, and_assoc]
      rfl

/-- Code run for each element of a list succeeds when it does for each of them. -/
theorem mapM_eq_some_iff {α β : Type} {f : α → Option β} {as : List α} {bs : List β} :
    as.mapM f = some bs ↔ List.Forall₂ (fun a b => f a = some b) as bs := by
  induction as generalizing bs with
  | nil =>
      rw [List.mapM_nil, List.forall₂_nil_left_iff]
      constructor
      · intro h
        exact (Option.some.inj h).symm
      · rintro rfl
        rfl
  | cons a as ih =>
      rw [List.mapM_cons, List.forall₂_cons_left_iff]
      constructor
      · intro h
        obtain ⟨b, hb, h⟩ := Option.bind_eq_some_iff.mp h
        obtain ⟨bs', hbs', h⟩ := Option.bind_eq_some_iff.mp h
        exact ⟨b, bs', hb, ih.mp hbs', (Option.some.inj h).symm⟩
      · rintro ⟨b, bs', hb, hbs', rfl⟩
        simp [hb, ih.mpr hbs']

theorem exists_mapM {α β : Type} {f : α → Option β} {as : List α}
    (h : ∀ a ∈ as, ∃ b, f a = some b) : ∃ bs, as.mapM f = some bs := by
  induction as with
  | nil => exact ⟨[], rfl⟩
  | cons a as ih =>
      obtain ⟨ha, has⟩ := List.forall_mem_cons.mp h
      obtain ⟨b, hb⟩ := ha
      obtain ⟨bs, hbs⟩ := ih has
      exact ⟨b :: bs, by simp [hb, hbs]⟩

theorem mapM_congr_mem {m : Type → Type} [Monad m] [LawfulMonad m] {α β : Type} {f g : α → m β}
    {as : List α} (h : ∀ a ∈ as, f a = g a) : as.mapM f = as.mapM g := by
  induction as with
  | nil => rfl
  | cons a as ih =>
      rw [List.mapM_cons, List.mapM_cons, h a List.mem_cons_self,
        ih fun b hb => h b (List.mem_cons_of_mem _ hb)]

/-- A loop over the indices of a list, one result an entry. -/
theorem mapM_range_ok {ε α β : Type} {f : ℕ → Except ε β} {R : α → β → Prop} {as : List α}
    (h : ∀ i a, as[i]? = some a → ∃ b, f i = .ok b ∧ R a b) :
    ∃ bs, (List.range as.length).mapM f = .ok bs ∧ List.Forall₂ R as bs := by
  have hfrom : ∀ (as : List α) (s : ℕ),
      (∀ i a, as[i]? = some a → ∃ b, f (s + i) = .ok b ∧ R a b) →
      ∃ bs, (List.range' s as.length).mapM f = .ok bs ∧ List.Forall₂ R as bs := by
    intro as
    induction as with
    | nil => exact fun s _ => ⟨[], rfl, .nil⟩
    | cons a as ih =>
        intro s h
        obtain ⟨b, hb, hab⟩ := h 0 a rfl
        obtain ⟨bs, hbs, hall⟩ := ih (s + 1) fun i a' ha' => by
          have := h (i + 1) a' ha'
          rwa [Nat.add_comm i 1, ← Nat.add_assoc] at this
        rw [Nat.add_zero] at hb
        refine ⟨b :: bs, ?_, .cons hab hall⟩
        rw [List.length_cons, List.range'_succ, List.mapM_cons, hb, hbs]
        rfl
  rw [List.range_eq_range']
  exact hfrom as 0 fun i a ha => by rw [Nat.zero_add]; exact h i a ha

/-- Two lists related to the same one. -/
theorem forall₂_of_common {ι α β : Type} {P : ι → α → Prop} {Q : ι → β → Prop} {S : α → β → Prop}
    {is : List ι} {as : List α} {bs : List β} (has : List.Forall₂ P is as)
    (hbs : List.Forall₂ Q is bs) (h : ∀ i ∈ is, ∀ a b, P i a → Q i b → S a b) :
    List.Forall₂ S as bs := by
  induction has generalizing bs with
  | nil =>
      rw [List.forall₂_nil_left_iff] at hbs
      subst hbs
      exact List.Forall₂.nil
  | @cons i a is as hP _ ih =>
      obtain ⟨b, bs', hQ, hbs', rfl⟩ := List.forall₂_cons_left_iff.mp hbs
      refine List.Forall₂.cons (h i List.mem_cons_self a b hP hQ) (ih hbs' ?_)
      intro j hj
      exact h j (List.mem_cons_of_mem _ hj)

/-- One entry is replaced by a related one. -/
theorem forall₂_set {α : Type} {R : α → α → Prop} (hrefl : ∀ a, R a a) {as : List α} {i : ℕ}
    {a b : α} (ha : as[i]? = some a) (hab : R a b) : List.Forall₂ R as (as.set i b) := by
  obtain ⟨hlt, hget⟩ := List.getElem?_eq_some_iff.mp ha
  rw [List.forall₂_iff_get]
  refine ⟨List.length_set.symm, ?_⟩
  intro j hj hj'
  rw [List.get_eq_getElem, List.get_eq_getElem, List.getElem_set]
  split
  next heq =>
    subst heq
    rw [hget]
    exact hab
  next => exact hrefl _

/-- What two relations to one list say of one element. -/
theorem exists_of_forall₂ {ι α : Type} {P Q : ι → α → Prop} {is : List ι} {as : List α}
    (hP : List.Forall₂ P is as) (hQ : List.Forall₂ Q is as) {i : ι} (hi : i ∈ is) :
    ∃ a, P i a ∧ Q i a := by
  induction hP with
  | nil => cases hi
  | @cons j a is as hPj _ ih =>
      obtain ⟨hQj, hQ⟩ := List.forall₂_cons.mp hQ
      rcases List.mem_cons.mp hi with rfl | hi
      · exact ⟨a, hPj, hQj⟩
      · exact ih hQ hi

section Verdicts

variable {as bs : List Bool}

/-- A list that says `true` where another does says it at least as often. -/
theorem count_true_le (h : List.Forall₂ (fun a b => a = true → b = true) as bs) :
    as.count true ≤ bs.count true := by
  induction h with
  | nil => exact Nat.le_refl _
  | cons hhead _ ih =>
      rw [List.count_cons, List.count_cons]
      split
      · simp_all
      · omega

theorem eq_of_count_true_le (h : List.Forall₂ (fun a b => a = true → b = true) as bs)
    (hcount : bs.count true ≤ as.count true) : as = bs := by
  induction h with
  | nil => rfl
  | @cons a b as bs hhead htail ih =>
      have hle := count_true_le htail
      rw [List.count_cons, List.count_cons] at hcount
      cases a with
      | true =>
          obtain rfl := hhead rfl
          rw [ih (by simpa using hcount)]
      | false =>
          cases b with
          | true =>
              simp at hcount
              omega
          | false => rw [ih (by simpa using hcount)]

end Verdicts

/-- A test that holds less often, and fails at some element the other holds at, counts less. -/
theorem countP_lt_countP {α : Type} {as : List α} {p q : α → Bool}
    (h : ∀ a ∈ as, p a = true → q a = true) {a : α} (ha : a ∈ as) (hp : p a = false)
    (hq : q a = true) : as.countP p < as.countP q := by
  obtain ⟨pre, post, rfl⟩ := List.append_of_mem ha
  have hpre := List.countP_mono_left fun b hb => h b (List.mem_append_left _ hb)
  have hpost := List.countP_mono_left fun b hb =>
    h b (List.mem_append_right _ (List.mem_cons_of_mem _ hb))
  rw [List.countP_append, List.countP_append, List.countP_cons, List.countP_cons, hp, hq]
  simp only [Bool.false_eq_true, if_false, if_true]
  omega

/-! ## Blocks -/

/-- Where blocks of one length follow each other, a place is its block and its place in there. -/
theorem getElem?_flatMap {α β : Type} {f : α → List β} {m : ℕ} {as : List α}
    (hm : ∀ a ∈ as, (f a).length = m) {i : ℕ} {a : α} (hi : as[i]? = some a) {j : ℕ} (hj : j < m) :
    (as.flatMap f)[i * m + j]? = (f a)[j]? := by
  induction as generalizing i with
  | nil => simp at hi
  | cons b as ih =>
      have hb := hm b List.mem_cons_self
      rw [List.flatMap_cons]
      cases i with
      | zero =>
          cases hi
          rw [Nat.zero_mul, Nat.zero_add, List.getElem?_append_left (hb ▸ hj)]
      | succ i =>
          have hplace : (i + 1) * m + j = (f b).length + (i * m + j) := by
            rw [hb, Nat.succ_mul]
            omega
          rw [hplace, List.getElem?_append_right (Nat.le_add_right _ _), Nat.add_sub_cancel_left]
          exact ih (fun a ha => hm a (List.mem_cons_of_mem _ ha)) hi

/-! ## Splitting -/

theorem getElem?_of_drop {α : Type} {l rest : List α} {i : ℕ} {a : α}
    (h : l.drop i = a :: rest) : l[i]? = some a := by
  have hhead := congrArg List.head? h
  rwa [List.head?_drop] at hhead

theorem drop_succ_of_drop {α : Type} {l rest : List α} {i : ℕ} {a : α}
    (h : l.drop i = a :: rest) : l.drop (i + 1) = rest := by
  rw [← List.tail_drop, h]
  rfl

/-- A part has no separator, and its elements are those of the whole. -/
theorem mem_splitOn {α : Type} [DecidableEq α] {c : α} {part : List α} :
    ∀ {text : List α}, part ∈ text.splitOn c → c ∉ part ∧ part ⊆ text
  | [], h => by
      rw [List.splitOn_nil, List.mem_singleton] at h
      simp [h]
  | d :: text, h => by
      rw [List.splitOn_cons_eq_if_modifyHead] at h
      split at h
      · rcases List.mem_cons.mp h with rfl | h
        · simp
        · obtain ⟨hc, hsub⟩ := mem_splitOn h
          exact ⟨hc, List.Subset.trans hsub (List.subset_cons_self d text)⟩
      · rename_i hne
        obtain ⟨first, rest, hparts⟩ := List.exists_cons_of_ne_nil (List.splitOn_ne_nil c text)
        rw [hparts, List.modifyHead_cons, List.mem_cons] at h
        rcases h with rfl | h
        · obtain ⟨hc, hsub⟩ := mem_splitOn (hparts ▸ List.mem_cons_self : first ∈ text.splitOn c)
          rw [List.mem_cons, not_or]
          exact ⟨⟨fun hcd => hne (by simp [hcd]), hc⟩, List.cons_subset_cons d hsub⟩
        · obtain ⟨hc, hsub⟩ := mem_splitOn
            (hparts ▸ List.mem_cons_of_mem _ h : part ∈ text.splitOn c)
          exact ⟨hc, List.Subset.trans hsub (List.subset_cons_self d text)⟩

/-! ## Sorting -/

/-- A list is sorted by what orders its elements. -/
theorem pairwise_mergeSort_of_mem {α : Type} {r : α → α → Bool} {list : List α}
    (htrans : ∀ a ∈ list, ∀ b ∈ list, ∀ c ∈ list, r a b = true → r b c = true → r a c = true)
    (htotal : ∀ a ∈ list, ∀ b ∈ list, (r a b || r b a) = true) :
    (list.mergeSort r).Pairwise fun a b => r a b = true := by
  let onMem : {a // a ∈ list} → {a // a ∈ list} → Bool := fun a b => r a.1 b.1
  have hsorted : (list.attach.mergeSort onMem).Pairwise fun a b => onMem a b = true :=
    List.pairwise_mergeSort (fun a b c => htrans a.1 a.2 b.1 b.2 c.1 c.2)
      (fun a b => htotal a.1 a.2 b.1 b.2) _
  have hmap : (list.attach.mergeSort onMem).map Subtype.val =
      (list.attach.map Subtype.val).mergeSort r := List.map_mergeSort fun _ _ _ _ => rfl
  rw [List.attach_map_subtype_val] at hmap
  rw [← hmap, List.pairwise_map]
  exact hsorted

end GatoCore.Lib
