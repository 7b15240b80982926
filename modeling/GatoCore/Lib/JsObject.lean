import GatoCore.Lib.Increasing
import Mathlib.Data.List.Nodup

/-!
# Objects with ordered keys

An object gives its own keys in a fixed order: the array indices in ascending order, then the other
keys in the order in which they came. Setting a key that is there keeps its place.
-/

namespace GatoCore.Lib

/-- The key of an index. -/
def indexText (n : ℕ) : List Char := Nat.toDigits 10 n

/-- The index a key is. -/
def asIndex (key : List Char) : Option ℕ :=
  let n := Nat.ofDigitChars 10 key 0
  if key = indexText n ∧ n < 4294967295 then some n else none

theorem asIndex_indexText {n : ℕ} (h : n < 4294967295) : asIndex (indexText n) = some n := by
  have hn : Nat.ofDigitChars 10 (indexText n) 0 = n :=
    Nat.ofDigitChars_toDigits (by decide) (by decide)
  simp only [asIndex, hn, h, and_self, if_true]

theorem indexText_of_asIndex {key : List Char} {n : ℕ} (h : asIndex key = some n) :
    key = indexText n ∧ n < 4294967295 := by
  simp only [asIndex] at h
  split at h
  · rename_i hkey
    obtain rfl := Option.some.inj h
    exact hkey
  · cases h

/-- A key that does not begin with a digit is no index. -/
theorem asIndex_eq_none {c : Char} {rest : List Char} (h : c.isDigit = false) :
    asIndex (c :: rest) = none := by
  cases hkey : asIndex (c :: rest) with
  | none => rfl
  | some n =>
      have hdigit : c.isDigit = true := by
        refine Nat.isDigit_of_mem_toDigits (b := 10) (n := n) (by decide) (by decide) ?_
        have heq := (indexText_of_asIndex hkey).1
        rw [indexText] at heq
        rw [← heq]
        exact List.mem_cons_self
      rw [h] at hdigit
      cases hdigit

structure JsObject (V : Type) where
  indices : List (ℕ × V)
  names : List (List Char × V)

namespace JsObject

variable {V V' : Type}

def empty : JsObject V := ⟨[], []⟩

def setIndex (n : ℕ) (v : V) : List (ℕ × V) → List (ℕ × V)
  | [] => [(n, v)]
  | (m, w) :: rest =>
      if n < m then (n, v) :: (m, w) :: rest
      else if n = m then (n, v) :: rest
      else (m, w) :: setIndex n v rest

def setName (key : List Char) (v : V) : List (List Char × V) → List (List Char × V)
  | [] => [(key, v)]
  | (key', w) :: rest => if key = key' then (key, v) :: rest else (key', w) :: setName key v rest

/-- `object[key] = v`. -/
def set (o : JsObject V) (key : List Char) (v : V) : JsObject V :=
  match asIndex key with
  | some n => { o with indices := setIndex n v o.indices }
  | none => { o with names := setName key v o.names }

/-- `object[key]`, for an own key. -/
def get? (o : JsObject V) (key : List Char) : Option V :=
  match asIndex key with
  | some n => o.indices.lookup n
  | none => o.names.lookup key

/-- The own keys in their order, with their values. -/
def entries (o : JsObject V) : List (List Char × V) :=
  o.indices.map (fun e => (indexText e.1, e.2)) ++ o.names

/-- Every entry is set, one after the other. -/
def setAll (o : JsObject V) (entries : List (List Char × V)) : JsObject V :=
  entries.foldl (fun o e => o.set e.1 e.2) o

/-- Only the keys that meet a condition. -/
def filterKeys (p : List Char → Bool) (o : JsObject V) : JsObject V :=
  ⟨o.indices.filter fun e => p (indexText e.1), o.names.filter fun e => p e.1⟩

/-- What the keys of every object are: every one is there once, in its place. -/
structure Canonical (o : JsObject V) : Prop where
  increasing : Increasing Prod.fst o.indices
  bounded : ∀ e ∈ o.indices, e.1 < 4294967295
  nodup : (o.names.map Prod.fst).Nodup
  named : ∀ e ∈ o.names, asIndex e.1 = none

/-! ## Setting many keys -/

theorem setIndex_append {n : ℕ} {v : V} {l : List (ℕ × V)} (h : ∀ e ∈ l, e.1 < n) :
    setIndex n v l = l ++ [(n, v)] := by
  induction l with
  | nil => rfl
  | cons e l ih =>
      obtain ⟨hlt, hrest⟩ := List.forall_mem_cons.mp h
      rw [setIndex, if_neg (by omega), if_neg (by omega), ih hrest, List.cons_append]

/-- Indices in ascending order that all come after those of the object. -/
theorem setAll_indices {is : List (ℕ × V)} (hincreasing : Increasing Prod.fst is)
    (hbounded : ∀ e ∈ is, e.1 < 4294967295) {o : JsObject V}
    (hafter : ∀ e ∈ is, ∀ e' ∈ o.indices, e'.1 < e.1) :
    o.setAll (is.map fun e => (indexText e.1, e.2)) = { o with indices := o.indices ++ is } := by
  induction is generalizing o with
  | nil => simp [setAll]
  | cons e is ih =>
      obtain ⟨hlt, hrest⟩ := List.pairwise_cons.mp hincreasing
      have hset : o.set (indexText e.1) e.2 = { o with indices := o.indices ++ [e] } := by
        simp only [set, asIndex_indexText (hbounded e List.mem_cons_self)]
        rw [setIndex_append (hafter e List.mem_cons_self)]
      rw [List.map_cons, setAll, List.foldl_cons, hset]
      refine (ih hrest (fun a ha => hbounded a (List.mem_cons_of_mem _ ha)) ?_).trans ?_
      · intro a ha b hb
        rcases List.mem_append.mp hb with hmem | hmem
        · exact hafter a (List.mem_cons_of_mem _ ha) b hmem
        · rw [List.mem_singleton.mp hmem]
          exact hlt a ha
      · simp

/-- The values of `es` in the places of `base`, then the other entries of `es`. -/
def overrideNames (base es : List (List Char × V)) : List (List Char × V) :=
  base.map (fun e => (e.1, (es.lookup e.1).getD e.2)) ++
    es.filter fun e => e.1 ∉ base.map Prod.fst

theorem setName_of_mem {key : List Char} {v : V} {base : List (List Char × V)}
    (hnodup : (base.map Prod.fst).Nodup) (h : key ∈ base.map Prod.fst) :
    setName key v base = base.map fun e => (e.1, if e.1 = key then v else e.2) := by
  induction base with
  | nil => cases h
  | cons e base ih =>
      obtain ⟨hnot, hrest⟩ := List.nodup_cons.mp hnodup
      rw [setName, List.map_cons]
      by_cases hkey : key = e.1
      · subst hkey
        rw [if_pos rfl, if_pos rfl]
        congr 1
        refine (List.map_id base).symm.trans (List.map_congr_left ?_)
        intro a ha
        have hne : a.1 ≠ e.1 := fun heq => hnot (heq ▸ List.mem_map_of_mem ha)
        rw [if_neg hne]
        rfl
      · rw [if_neg hkey, if_neg (Ne.symm hkey),
          ih hrest ((List.mem_cons.mp h).resolve_left hkey)]

theorem setName_of_not_mem {key : List Char} {v : V} {base : List (List Char × V)}
    (h : key ∉ base.map Prod.fst) : setName key v base = base ++ [(key, v)] := by
  induction base with
  | nil => rfl
  | cons e base ih =>
      rw [List.map_cons, List.mem_cons, not_or] at h
      rw [setName, if_neg h.1, ih h.2, List.cons_append]

theorem lookup_eq_none_of_not_mem {key : List Char} {es : List (List Char × V)}
    (h : key ∉ es.map Prod.fst) : es.lookup key = none := by
  induction es with
  | nil => rfl
  | cons e es ih =>
      rw [List.map_cons, List.mem_cons, not_or] at h
      rw [List.lookup_cons, beq_eq_false_iff_ne.mpr h.1]
      exact ih h.2

theorem lookup_cons_of_ne {key key' : List Char} {v : V} {es : List (List Char × V)}
    (h : key' ≠ key) : ((key, v) :: es).lookup key' = es.lookup key' := by
  rw [List.lookup_cons, beq_eq_false_iff_ne.mpr h]

theorem overrideNames_cons_of_mem {key : List Char} {v : V} {base es : List (List Char × V)}
    (hes : key ∉ es.map Prod.fst) (h : key ∈ base.map Prod.fst) :
    overrideNames base ((key, v) :: es) =
      overrideNames (base.map fun e => (e.1, if e.1 = key then v else e.2)) es := by
  have hkeys : (base.map fun e => (e.1, if e.1 = key then v else e.2)).map Prod.fst =
      base.map Prod.fst := by
    rw [List.map_map]
    rfl
  rw [overrideNames, overrideNames, hkeys, List.map_map,
    List.filter_cons_of_neg (by simpa using h)]
  congr 1
  refine List.map_congr_left fun e _ => ?_
  by_cases hkey : e.1 = key
  · simp [hkey, lookup_eq_none_of_not_mem hes]
  · simp [hkey, lookup_cons_of_ne hkey]

theorem overrideNames_cons_of_not_mem {key : List Char} {v : V} {base es : List (List Char × V)}
    (hes : key ∉ es.map Prod.fst) (h : key ∉ base.map Prod.fst) :
    overrideNames base ((key, v) :: es) = overrideNames (base ++ [(key, v)]) es := by
  have hfilter : es.filter (fun e => e.1 ∉ (base ++ [(key, v)]).map Prod.fst) =
      es.filter (fun e => e.1 ∉ base.map Prod.fst) := by
    refine List.filter_congr fun e he => ?_
    have hne : e.1 ≠ key := fun heq => hes (heq ▸ List.mem_map_of_mem he)
    simp [hne]
  have hbase : base.map (fun e => (e.1, (((key, v) :: es).lookup e.1).getD e.2)) =
      base.map fun e => (e.1, (es.lookup e.1).getD e.2) := by
    refine List.map_congr_left fun e he => ?_
    have hne : e.1 ≠ key := fun heq => h (heq ▸ List.mem_map_of_mem he)
    rw [lookup_cons_of_ne hne]
  rw [overrideNames, overrideNames, hfilter, hbase, List.filter_cons_of_pos (by simpa using h),
    List.map_append, List.append_assoc, List.map_singleton, lookup_eq_none_of_not_mem hes]
  rfl

/-- Names that are set one after the other. -/
theorem foldl_setName {es : List (List Char × V)} (hes : (es.map Prod.fst).Nodup) :
    ∀ {base : List (List Char × V)}, (base.map Prod.fst).Nodup →
      es.foldl (fun l e => setName e.1 e.2 l) base = overrideNames base es := by
  induction es with
  | nil =>
      intro base _
      simp [overrideNames]
  | cons e es ih =>
      obtain ⟨key, v⟩ := e
      intro base hbase
      obtain ⟨hnot, hrest⟩ := List.nodup_cons.mp hes
      rw [List.foldl_cons]
      by_cases hmem : key ∈ base.map Prod.fst
      · rw [setName_of_mem hbase hmem, overrideNames_cons_of_mem hnot hmem]
        apply ih hrest
        rw [List.map_map]
        exact hbase
      · rw [setName_of_not_mem hmem, overrideNames_cons_of_not_mem hnot hmem]
        apply ih hrest
        rw [List.map_append, List.map_singleton, ← List.concat_eq_append]
        exact List.Nodup.concat hmem hbase

/-- Names none of which is an index. -/
theorem setAll_names {es : List (List Char × V)} (hnamed : ∀ e ∈ es, asIndex e.1 = none)
    {o : JsObject V} :
    o.setAll es = { o with names := es.foldl (fun l e => setName e.1 e.2 l) o.names } := by
  induction es generalizing o with
  | nil => rfl
  | cons e es ih =>
      have hset : o.set e.1 e.2 = { o with names := setName e.1 e.2 o.names } := by
        simp only [set, hnamed e List.mem_cons_self]
      have hrest := @ih (fun a ha => hnamed a (List.mem_cons_of_mem _ ha)) (o.set e.1 e.2)
      rw [hset] at hrest
      rw [setAll, List.foldl_cons, hset]
      exact hrest

theorem setAll_append {es es' : List (List Char × V)} {o : JsObject V} :
    o.setAll (es ++ es') = (o.setAll es).setAll es' := List.foldl_append

/-- Entries that begin with the keys of the base are all there is afterwards. -/
theorem overrideNames_of_prefix {base es : List (List Char × V)}
    (hes : (es.map Prod.fst).Nodup) (h : base.map Prod.fst <+: es.map Prod.fst) :
    overrideNames base es = es := by
  induction base generalizing es with
  | nil => simp [overrideNames]
  | cons e base ih =>
      cases es with
      | nil => exact absurd h (by simp)
      | cons e' es =>
          obtain ⟨hnot, hrest⟩ := List.nodup_cons.mp hes
          rw [List.map_cons, List.map_cons, List.cons_prefix_cons] at h
          have hbase : ∀ a ∈ base, a.1 ≠ e'.1 := by
            intro a ha heq
            exact hnot (heq ▸ h.2.subset (List.mem_map_of_mem ha))
          have hmap : base.map (fun a => (a.1, ((e' :: es).lookup a.1).getD a.2)) =
              base.map fun a => (a.1, (es.lookup a.1).getD a.2) := by
            refine List.map_congr_left fun a ha => ?_
            rw [lookup_cons_of_ne (hbase a ha)]
          have hfilter : es.filter (fun a => a.1 ∉ (e :: base).map Prod.fst) =
              es.filter (fun a => a.1 ∉ base.map Prod.fst) := by
            refine List.filter_congr fun a ha => ?_
            have hne : a.1 ≠ e.1 := by
              intro heq
              exact hnot (h.1 ▸ heq ▸ List.mem_map_of_mem ha)
            simp [hne]
          have hhead : (e.1, ((e' :: es).lookup e.1).getD e.2) = e' := by
            rw [h.1, List.lookup_cons_self]
            rfl
          rw [overrideNames, List.map_cons, hhead, hmap,
            List.filter_cons_of_neg (by simp [h.1]), hfilter, List.cons_append]
          exact congrArg (e' :: ·) (ih hrest h.2)

theorem overrideNames_nil {es : List (List Char × V)} : overrideNames [] es = es := by
  simp [overrideNames]

/-- All keys of an object are set on one that has no indices. -/
theorem setAll_entries_names {o : JsObject V} (h : o.Canonical) {base : List (List Char × V)}
    (hbase : (base.map Prod.fst).Nodup) :
    (⟨[], base⟩ : JsObject V).setAll o.entries = ⟨o.indices, overrideNames base o.names⟩ := by
  rw [entries, setAll_append,
    setAll_indices h.increasing h.bounded fun _ _ _ h' => (List.not_mem_nil h').elim,
    setAll_names h.named]
  simp only [List.nil_append, foldl_setName h.nodup hbase]

/-- An object is what setting its own keys in their order gives. -/
theorem setAll_entries {o : JsObject V} (h : o.Canonical) : empty.setAll o.entries = o := by
  have hnil : (([] : List (List Char × V)).map Prod.fst).Nodup := List.nodup_nil
  rw [empty, setAll_entries_names h hnil, overrideNames_nil]

/-! ## One key -/

theorem mem_setIndex {n : ℕ} {v : V} {l : List (ℕ × V)} {e : ℕ × V} (h : e ∈ setIndex n v l) :
    e = (n, v) ∨ e ∈ l := by
  induction l with
  | nil => exact .inl (List.mem_singleton.mp h)
  | cons a l ih =>
      rw [setIndex] at h
      split_ifs at h
      · exact List.mem_cons.mp h
      · rcases List.mem_cons.mp h with heq | hmem
        · exact .inl heq
        · exact .inr (List.mem_cons_of_mem _ hmem)
      · rcases List.mem_cons.mp h with heq | hmem
        · exact .inr (heq ▸ List.mem_cons_self)
        · exact (ih hmem).imp_right (List.mem_cons_of_mem _)

theorem increasing_setIndex {n : ℕ} {v : V} {l : List (ℕ × V)} (h : Increasing Prod.fst l) :
    Increasing Prod.fst (setIndex n v l) := by
  induction l with
  | nil => exact List.pairwise_singleton _ _
  | cons a l ih =>
      obtain ⟨ha, hrest⟩ := List.pairwise_cons.mp h
      rw [setIndex]
      split_ifs with hlt heq
      · refine List.pairwise_cons.mpr ⟨?_, h⟩
        intro b hb
        rcases List.mem_cons.mp hb with rfl | hmem
        · exact hlt
        · exact hlt.trans (ha b hmem)
      · exact List.pairwise_cons.mpr ⟨fun b hb => heq ▸ ha b hb, hrest⟩
      · refine List.pairwise_cons.mpr ⟨?_, ih hrest⟩
        intro b hb
        rcases mem_setIndex hb with rfl | hmem
        · exact lt_of_le_of_ne (not_lt.mp hlt) (Ne.symm heq)
        · exact ha b hmem

theorem mem_setName {key : List Char} {v : V} {l : List (List Char × V)} {e : List Char × V}
    (hnodup : (l.map Prod.fst).Nodup) (h : e ∈ setName key v l) :
    e = (key, v) ∨ (e ∈ l ∧ e.1 ≠ key) := by
  by_cases hmem : key ∈ l.map Prod.fst
  · rw [setName_of_mem hnodup hmem, List.mem_map] at h
    obtain ⟨a, ha, rfl⟩ := h
    by_cases hkey : a.1 = key
    · exact .inl (by simp [hkey])
    · exact .inr (by simpa [hkey] using ha)
  · rw [setName_of_not_mem hmem, List.mem_append, List.mem_singleton] at h
    refine h.symm.imp_right fun he => ⟨he, ?_⟩
    rintro rfl
    exact hmem (List.mem_map_of_mem he)

/-- A key stays where it is; a new one comes last. -/
theorem map_fst_setName (key : List Char) (v : V) (l : List (List Char × V)) :
    (setName key v l).map Prod.fst =
      if key ∈ l.map Prod.fst then l.map Prod.fst else l.map Prod.fst ++ [key] := by
  induction l with
  | nil => rfl
  | cons e l ih =>
      rw [setName]
      by_cases hkey : key = e.1
      · simp [hkey]
      · rw [if_neg hkey, List.map_cons, ih, List.map_cons]
        simp only [List.mem_cons, hkey, false_or]
        split_ifs <;> rfl

theorem nodup_setName {key : List Char} {v : V} {l : List (List Char × V)}
    (h : (l.map Prod.fst).Nodup) : ((setName key v l).map Prod.fst).Nodup := by
  rw [map_fst_setName]
  split_ifs with hmem
  · exact h
  · rw [← List.concat_eq_append]
    exact List.Nodup.concat hmem h

theorem Canonical.filterKeys {o : JsObject V} (h : o.Canonical) (p : List Char → Bool) :
    (o.filterKeys p).Canonical where
  increasing := h.increasing.sublist List.filter_sublist
  bounded e he := h.bounded e (List.mem_filter.mp he).1
  nodup := h.nodup.sublist (List.filter_sublist.map _)
  named e he := h.named e (List.mem_filter.mp he).1

theorem mem_entries_filterKeys {o : JsObject V} {p : List Char → Bool} {e : List Char × V}
    (h : e ∈ (o.filterKeys p).entries) : e ∈ o.entries ∧ p e.1 := by
  rcases List.mem_append.mp h with hmem | hmem
  · obtain ⟨a, ha, rfl⟩ := List.mem_map.mp hmem
    obtain ⟨ha, hp⟩ := List.mem_filter.mp ha
    exact ⟨List.mem_append_left _ (List.mem_map_of_mem ha), hp⟩
  · obtain ⟨he, hp⟩ := List.mem_filter.mp hmem
    exact ⟨List.mem_append_right _ he, hp⟩

end JsObject

end GatoCore.Lib
