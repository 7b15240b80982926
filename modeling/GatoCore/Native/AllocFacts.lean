import Mathlib.Data.List.Induction
import Mathlib.Data.List.TakeWhile
import GatoCore.Native.Alloc

/-!
# What the allocator guarantees

For any function whatever: a temp of the code gets a place, a spill slot belongs to one temp, and
two temps share a register only when one range ends before the other starts.
-/

namespace GatoCore.Native

/-! ## Live ranges -/

/-- The temps the instruction at position `i` defines. -/
def defsAt (code : List Instr) (i : ℕ) : List ℕ := (code[i]?.map tempDefs).getD []

/-- The temps the instruction at position `i` uses. -/
def usesAt (code : List Instr) (i : ℕ) : List ℕ := (code[i]?.map tempUses).getD []

theorem defsAt_append_of_lt {code : List Instr} {i : ℕ} (hi : i < code.length)
    (rest : List Instr) : defsAt (code ++ rest) i = defsAt code i := by
  simp [defsAt, List.getElem?_append_left hi]

theorem usesAt_append_of_lt {code : List Instr} {i : ℕ} (hi : i < code.length)
    (rest : List Instr) : usesAt (code ++ rest) i = usesAt code i := by
  simp [usesAt, List.getElem?_append_left hi]

@[simp] theorem defsAt_length (code : List Instr) (inst : Instr) :
    defsAt (code ++ [inst]) code.length = tempDefs inst := by
  simp [defsAt]

@[simp] theorem usesAt_length (code : List Instr) (inst : Instr) :
    usesAt (code ++ [inst]) code.length = tempUses inst := by
  simp [usesAt]

theorem lt_of_mem_defsAt {code : List Instr} {i t : ℕ} (h : t ∈ defsAt code i) :
    i < code.length := by
  by_contra hle
  simp [defsAt, List.getElem?_eq_none (Nat.le_of_not_lt hle)] at h

theorem lt_of_mem_usesAt {code : List Instr} {i t : ℕ} (h : t ∈ usesAt code i) :
    i < code.length := by
  by_contra hle
  simp [usesAt, List.getElem?_eq_none (Nat.le_of_not_lt hle)] at h

/-- The temp occurs at position `i`. -/
def OccursAt (code : List Instr) (i t : ℕ) : Prop := t ∈ defsAt code i ∨ t ∈ usesAt code i

theorem OccursAt.lt {code : List Instr} {i t : ℕ} (h : OccursAt code i t) : i < code.length :=
  h.elim lt_of_mem_defsAt lt_of_mem_usesAt

theorem occursAt_concat {code : List Instr} {inst : Instr} {i t : ℕ} :
    OccursAt (code ++ [inst]) i t ↔
      OccursAt code i t ∨ i = code.length ∧ (t ∈ tempDefs inst ∨ t ∈ tempUses inst) := by
  rcases Nat.lt_trichotomy i code.length with hi | rfl | hi
  · simp [OccursAt, defsAt_append_of_lt hi, usesAt_append_of_lt hi, hi.ne]
  · have hnot : ¬ OccursAt code code.length t := fun h => h.lt.false
    simp [OccursAt] at hnot ⊢
    simp [hnot]
  · have hnot : ¬ OccursAt code i t := fun h => absurd h.lt (by omega)
    have hnot' : ¬ OccursAt (code ++ [inst]) i t := fun h => absurd h.lt (by simp; omega)
    simp [hnot, hnot', hi.ne']

theorem setUndefined_apply (table : ℕ → Option ℕ) (t idx u : ℕ) :
    setUndefined table t idx u = (table u).or (if u = t then some idx else none) := by
  unfold setUndefined
  split <;> simp

/-- A loop over temps that sets the undefined entries of one of the two tables. -/
theorem foldl_setUndefined (f : Ranges → ℕ → Ranges) (table : Ranges → ℕ → Option ℕ) {idx : ℕ}
    (hf : ∀ r t, table (f r t) = setUndefined (table r) t idx) (u : ℕ) (ts : List ℕ)
    (r : Ranges) :
    table (ts.foldl f r) u = (table r u).or (if u ∈ ts then some idx else none) := by
  induction ts generalizing r with
  | nil => simp
  | cons t ts ih =>
      rw [List.foldl_cons, ih, hf, setUndefined_apply]
      by_cases hu : u = t <;> cases table r u <;> simp [hu]

theorem addUses_ends (idx u : ℕ) (ts : List ℕ) (r : Ranges) :
    (ts.foldl (Ranges.addUse idx) r).ends u = if u ∈ ts then some idx else r.ends u := by
  induction ts generalizing r with
  | nil => simp
  | cons t ts ih =>
      rw [List.foldl_cons, ih, Ranges.addUse]
      by_cases hu : u = t <;> simp [hu]

theorem Ranges.addInstr_starts (r : Ranges) (idx : ℕ) (inst : Instr) (u : ℕ) :
    (r.addInstr idx inst).starts u =
      (r.starts u).or (if u ∈ tempDefs inst ∨ u ∈ tempUses inst then some idx else none) := by
  rw [Ranges.addInstr, foldl_setUndefined (Ranges.addUse idx) Ranges.starts (fun _ _ => rfl),
    foldl_setUndefined (Ranges.addDef idx) Ranges.starts (fun _ _ => rfl)]
  by_cases hd : u ∈ tempDefs inst <;> cases r.starts u <;> simp [hd]

theorem Ranges.addInstr_ends (r : Ranges) (idx : ℕ) (inst : Instr) (u : ℕ) :
    (r.addInstr idx inst).ends u = if u ∈ tempUses inst then some idx else
      (r.ends u).or (if u ∈ tempDefs inst then some idx else none) := by
  rw [Ranges.addInstr, addUses_ends,
    foldl_setUndefined (Ranges.addDef idx) Ranges.ends (fun _ _ => rfl)]

theorem liveRanges_concat (code : List Instr) (inst : Instr) :
    liveRanges (code ++ [inst]) = (liveRanges code).addInstr code.length inst := by
  simp [liveRanges, List.zipIdx_append]

/-- A range starts at an occurrence of the temp. -/
theorem liveRanges_starts_occursAt {code : List Instr} {t s : ℕ}
    (h : (liveRanges code).starts t = some s) : OccursAt code s t := by
  induction code using List.reverseRecOn generalizing s with
  | nil => cases h
  | append_singleton code inst ih =>
      rw [liveRanges_concat, Ranges.addInstr_starts] at h
      rw [occursAt_concat]
      cases hs : (liveRanges code).starts t with
      | some s' =>
          rw [hs] at h
          cases h
          exact .inl (ih hs)
      | none =>
          simp only [hs, Option.none_or, Option.ite_none_right_eq_some, Option.some.injEq] at h
          exact .inr ⟨h.2.symm, h.1⟩

/-- A range ends at an occurrence of the temp. -/
theorem liveRanges_ends_occursAt {code : List Instr} {t e : ℕ}
    (h : (liveRanges code).ends t = some e) : OccursAt code e t := by
  induction code using List.reverseRecOn generalizing e with
  | nil => cases h
  | append_singleton code inst ih =>
      rw [liveRanges_concat, Ranges.addInstr_ends] at h
      rw [occursAt_concat]
      split at h
      · rename_i hu
        cases h
        exact .inr ⟨rfl, .inr hu⟩
      · cases he : (liveRanges code).ends t with
        | some e' =>
            rw [he] at h
            cases h
            exact .inl (ih he)
        | none =>
            simp only [he, Option.none_or, Option.ite_none_right_eq_some,
              Option.some.injEq] at h
            exact .inr ⟨h.2.symm, .inl h.1⟩

/-- A range starts no later than any occurrence of the temp and ends no earlier than any use. -/
theorem liveRanges_of_occursAt {code : List Instr} {i t : ℕ} (h : OccursAt code i t) :
    ∃ s e, (liveRanges code).starts t = some s ∧ (liveRanges code).ends t = some e ∧
      s ≤ i ∧ s ≤ e ∧ e < code.length ∧ (t ∈ usesAt code i → i ≤ e) := by
  induction code using List.reverseRecOn generalizing i with
  | nil => exact absurd h.lt (Nat.not_lt_zero _)
  | append_singleton code inst ih =>
      rw [liveRanges_concat, Ranges.addInstr_starts, Ranges.addInstr_ends]
      simp only [List.length_append, List.length_singleton]
      rcases occursAt_concat.mp h with hold | ⟨rfl, hnew⟩
      · obtain ⟨s, e, hs, he, hsi, hse, helt, huse⟩ := ih hold
        have hi := hold.lt
        rw [hs, he, usesAt_append_of_lt hi]
        by_cases hu : t ∈ tempUses inst
        · exact ⟨s, code.length, by simp [hu], by simp [hu], hsi, by omega, by omega,
            fun _ => by omega⟩
        · exact ⟨s, e, by simp, by simp [hu], hsi, hse, by omega, huse⟩
      · rw [usesAt_length]
        by_cases hold : ∃ j, OccursAt code j t
        · obtain ⟨j, hj⟩ := hold
          obtain ⟨s, e, hs, he, _, hse, helt, _⟩ := ih hj
          rw [hs, he]
          by_cases hu : t ∈ tempUses inst
          · exact ⟨s, code.length, by simp, by simp [hu], by omega, by omega, by omega,
              fun _ => by omega⟩
          · exact ⟨s, e, by simp, by simp [hu], by omega, hse, by omega, fun h => absurd h hu⟩
        · have hs : (liveRanges code).starts t = none :=
            Option.eq_none_iff_forall_ne_some.mpr fun s hs =>
              hold ⟨s, liveRanges_starts_occursAt hs⟩
          have he : (liveRanges code).ends t = none :=
            Option.eq_none_iff_forall_ne_some.mpr fun e he =>
              hold ⟨e, liveRanges_ends_occursAt he⟩
          rw [hs, he]
          refine ⟨code.length, code.length, by simp [hnew], ?_, by omega, by omega, by omega,
            fun _ => Nat.le_refl _⟩
          by_cases hu : t ∈ tempUses inst
          · simp [hu]
          · simp [hu, hnew.resolve_right hu]

/-! ## The scan -/

/-- One range ends before the other starts. -/
def Interval.Apart (i j : Interval) : Prop := i.stop < j.start ∨ j.stop < i.start

theorem Interval.Apart.symm {i j : Interval} (h : i.Apart j) : j.Apart i := h.elim .inr .inl

/-- What holds of the state after the intervals of `done`, with `now` the start of the last. -/
structure AllocInv (done : List Interval) (now : ℕ) (st : AllocState) : Prop where
  /-- Every register is free or active, once. -/
  regs : (st.freeRegs ++ st.active.map (·.reg)).Perm allocatable
  active_located : ∀ a ∈ st.active, st.locations a.temp = some (.reg a.reg)
  /-- A range that had a register and is not active any more is over. -/
  ended : ∀ i ∈ done, ∀ r, st.locations i.temp = some (.reg r) →
    ⟨i.temp, r, i.stop⟩ ∈ st.active ∨ i.stop < now
  apart : ∀ i ∈ done, ∀ j ∈ done, i.temp ≠ j.temp → ∀ r, st.locations i.temp = some (.reg r) →
    st.locations j.temp = some (.reg r) → i.Apart j
  reg_mem : ∀ t r, st.locations t = some (.reg r) → r ∈ allocatable
  spill_lt : ∀ t s, st.locations t = some (.spill s) → s < st.spillCount
  spill_inj : ∀ t u s, st.locations t = some (.spill s) → st.locations u = some (.spill s) → t = u
  located : ∀ t, st.locations t ≠ none ↔ ∃ i ∈ done, i.temp = t

theorem AllocInv.initial : AllocInv [] 0 initialAlloc := by
  constructor <;> simp [initialAlloc]

namespace AllocInv

variable {done : List Interval} {now : ℕ} {st : AllocState}

theorem regs_nodup (h : AllocInv done now st) :
    (st.freeRegs ++ st.active.map (·.reg)).Nodup :=
  h.regs.nodup_iff.mpr (by decide)

theorem sortActive_perm (active : List Active) : (sortActive active).Perm active :=
  List.perm_insertionSort _ _

theorem expireOld (h : AllocInv done now st) {current : Interval} (hnow : now ≤ current.start) :
    AllocInv done current.start (st.expireOld current) := by
  have hsplit : ((sortActive st.active).takeWhile (·.stop < current.start) ++
      (sortActive st.active).dropWhile (·.stop < current.start)).Perm st.active := by
    rw [List.takeWhile_append_dropWhile]
    exact sortActive_perm _
  refine
    { regs := ?_
      active_located := ?_
      ended := ?_
      apart := h.apart
      reg_mem := h.reg_mem
      spill_lt := h.spill_lt
      spill_inj := h.spill_inj
      located := h.located }
  · refine List.Perm.trans ?_ h.regs
    simp only [AllocState.expireOld, List.append_assoc, ← List.map_append]
    exact (hsplit.map _).append_left _
  · intro a ha
    exact h.active_located a (hsplit.subset (List.mem_append_right _ ha))
  · intro i hi r hr
    rcases h.ended i hi r hr with hact | hlt
    · rcases List.mem_append.mp (hsplit.symm.subset hact) with hold | hkeep
      · exact .inr (by simpa using List.mem_takeWhile_imp hold)
      · exact .inl hkeep
    · exact .inr (hlt.trans_le hnow)

/-- A range that holds a register which is not active is over. -/
theorem ended_of_notMem (h : AllocInv done now st) {i : Interval} (hi : i ∈ done) {r : Reg}
    (hr : st.locations i.temp = some (.reg r)) (hact : r ∉ st.active.map (·.reg)) :
    i.stop < now :=
  (h.ended i hi r hr).resolve_left fun ha => hact (List.mem_map_of_mem ha)

/-- The current interval gets a register that is free. -/
theorem takeReg (h : AllocInv done now st) {current : Interval} (hnow : now = current.start)
    (hnew : ∀ i ∈ done, i.temp ≠ current.temp) {reg : Reg} {freeRegs : List Reg}
    (hfree : st.freeRegs = reg :: freeRegs) :
    AllocInv (current :: done) now (st.takeReg current reg freeRegs) := by
  have hnodup := h.regs_nodup
  rw [hfree, List.cons_append, List.nodup_cons, List.mem_append, not_or] at hnodup
  have hold : ∀ t, t ≠ current.temp → (st.takeReg current reg freeRegs).locations t =
      st.locations t := fun t ht => Function.update_of_ne ht _ _
  have hcur : (st.takeReg current reg freeRegs).locations current.temp = some (.reg reg) :=
    Function.update_self _ _ _
  have hspill : ∀ t s, (st.takeReg current reg freeRegs).locations t = some (.spill s) →
      st.locations t = some (.spill s) := by
    intro t s ht
    have hne : t ≠ current.temp := by
      rintro rfl
      rw [hcur] at ht
      cases ht
    rwa [hold t hne] at ht
  -- the ranges that held the register before are over
  have hover : ∀ i ∈ done, st.locations i.temp = some (.reg reg) → i.Apart current :=
    fun i hi hr => .inl (hnow ▸ h.ended_of_notMem hi hr hnodup.1.2)
  constructor
  case regs =>
    refine List.Perm.trans ?_ h.regs
    rw [hfree]
    refine (((sortActive_perm _).map _).append_left _).trans ?_
    simp only [List.map_append, List.map_cons, List.map_nil, ← List.append_assoc]
    exact List.perm_append_singleton _ _
  case active_located =>
    intro a ha
    rcases List.mem_append.mp ((sortActive_perm _).subset ha) with ha | ha
    · have hloc := h.active_located a ha
      obtain ⟨i, hi, hia⟩ := (h.located a.temp).mp (by simp [hloc])
      rw [← hia, hold _ (hnew i hi), hia, hloc]
    · rw [List.mem_singleton.mp ha, hcur]
  case ended =>
    intro i hi r hr
    rcases List.mem_cons.mp hi with rfl | hi
    · rw [hcur] at hr
      cases hr
      exact .inl ((sortActive_perm _).symm.subset (by simp))
    · rw [hold _ (hnew i hi)] at hr
      refine (h.ended i hi r hr).imp_left fun ha => ?_
      exact (sortActive_perm _).symm.subset (List.mem_append_left _ ha)
  case apart =>
    intro i hi j hj hne r hir hjr
    rcases List.mem_cons.mp hi with rfl | hid <;> rcases List.mem_cons.mp hj with rfl | hjd
    · exact absurd rfl hne
    · rw [hcur] at hir
      cases hir
      rw [hold _ (hnew j hjd)] at hjr
      exact (hover j hjd hjr).symm
    · rw [hcur] at hjr
      cases hjr
      rw [hold _ (hnew i hid)] at hir
      exact hover i hid hir
    · rw [hold _ (hnew i hid)] at hir
      rw [hold _ (hnew j hjd)] at hjr
      exact h.apart i hid j hjd hne r hir hjr
  case reg_mem =>
    intro t r ht
    by_cases htc : t = current.temp
    · rw [htc, hcur] at ht
      cases ht
      exact h.regs.subset (by simp [hfree])
    · exact h.reg_mem t r (by rwa [hold t htc] at ht)
  case spill_lt =>
    exact fun t s ht => h.spill_lt t s (hspill t s ht)
  case spill_inj =>
    exact fun t u s ht hu => h.spill_inj t u s (hspill t s ht) (hspill u s hu)
  case located =>
    intro t
    by_cases ht : t = current.temp
    · subst ht
      simp [hcur]
    · rw [hold t ht, h.located t]
      simp [Ne.symm ht]

/-- An interval moves to a fresh spill slot and is not active. -/
theorem moveToSpill (h : AllocInv done now st) (done' : List Interval) (i : Interval)
    (hdone : ∀ j, j ∈ done' ↔ j = i ∨ j ∈ done)
    {active : List Active} {freeRegs : List Reg}
    (hregs : (freeRegs ++ active.map (·.reg)).Perm allocatable)
    (hactive : ∀ a, a ∈ active ↔ a ∈ st.active ∧ a.temp ≠ i.temp) :
    AllocInv done' now
      { freeRegs := freeRegs, active := active
        locations := Function.update st.locations i.temp (some (.spill st.spillCount))
        spillCount := st.spillCount + 1 } := by
  -- only the place of one temp changes, and its slot is new
  have hreg : ∀ t r, Function.update st.locations i.temp (some (.spill st.spillCount)) t =
      some (.reg r) → t ≠ i.temp ∧ st.locations t = some (.reg r) := by
    intro t r ht
    by_cases hti : t = i.temp
    · simp [hti] at ht
    · exact ⟨hti, by rwa [Function.update_of_ne hti] at ht⟩
  have hin : ∀ j ∈ done', j.temp ≠ i.temp → j ∈ done := by
    intro j hj hne
    rcases (hdone j).mp hj with rfl | hj
    · exact absurd rfl hne
    · exact hj
  have hslot : ∀ t s, Function.update st.locations i.temp (some (.spill st.spillCount)) t =
      some (.spill s) → t = i.temp ∧ s = st.spillCount ∨
        t ≠ i.temp ∧ st.locations t = some (.spill s) := by
    intro t s ht
    by_cases hti : t = i.temp
    · simp only [hti, Function.update_self, Option.some.injEq, Location.spill.injEq] at ht
      exact .inl ⟨hti, ht.symm⟩
    · exact .inr ⟨hti, by rwa [Function.update_of_ne hti] at ht⟩
  constructor
  case regs => exact hregs
  case active_located =>
    intro a ha
    obtain ⟨ha, hne⟩ := (hactive a).mp ha
    show Function.update st.locations i.temp _ a.temp = _
    rw [Function.update_of_ne hne]
    exact h.active_located a ha
  case ended =>
    intro j hj r hr
    obtain ⟨hne, hr⟩ := hreg _ _ hr
    exact (h.ended j (hin j hj hne) r hr).imp_left fun ha => (hactive _).mpr ⟨ha, hne⟩
  case apart =>
    intro j hj k hk hne r hjr hkr
    obtain ⟨hji, hjr⟩ := hreg _ _ hjr
    obtain ⟨hki, hkr⟩ := hreg _ _ hkr
    exact h.apart j (hin j hj hji) k (hin k hk hki) hne r hjr hkr
  case reg_mem => exact fun t r ht => h.reg_mem t r (hreg t r ht).2
  case spill_lt =>
    intro t s ht
    rcases hslot t s ht with ⟨-, rfl⟩ | ⟨-, ht⟩
    · exact Nat.lt_succ_self _
    · exact (h.spill_lt t s ht).trans (Nat.lt_succ_self _)
  case spill_inj =>
    intro t u s ht hu
    rcases hslot t s ht with ⟨rfl, rfl⟩ | ⟨-, ht⟩ <;> rcases hslot u _ hu with ⟨rfl, hs⟩ | ⟨-, hu⟩
    · rfl
    · exact absurd (h.spill_lt u _ hu) (Nat.lt_irrefl _)
    · exact absurd (h.spill_lt t s ht) (by omega)
    · exact h.spill_inj t u s ht hu
  case located =>
    intro t
    show Function.update st.locations i.temp _ t ≠ none ↔ _
    by_cases hti : t = i.temp
    · subst hti
      simp only [Function.update_self, ne_eq, reduceCtorEq, not_false_eq_true, true_iff]
      exact ⟨i, (hdone i).mpr (.inl rfl), rfl⟩
    · rw [Function.update_of_ne hti, h.located t]
      constructor
      · rintro ⟨j, hj, rfl⟩
        exact ⟨j, (hdone j).mpr (.inr hj), rfl⟩
      · rintro ⟨j, hj, rfl⟩
        exact ⟨j, hin j hj hti, rfl⟩

/-- The current interval gets a spill slot of its own. -/
theorem spill (h : AllocInv done now st) {current : Interval}
    (hnew : ∀ i ∈ done, i.temp ≠ current.temp) :
    AllocInv (current :: done) now (st.spill current) := by
  refine h.moveToSpill (current :: done) current (by simp)
    (((sortActive_perm _).map _).append_left _ |>.trans h.regs) ?_
  intro a
  rw [(sortActive_perm _).mem_iff]
  refine ⟨fun ha => ⟨ha, ?_⟩, fun ha => ha.1⟩
  obtain ⟨i, hi, hia⟩ := (h.located a.temp).mp (by simp [h.active_located a ha])
  exact hia ▸ hnew i hi

/-- The victim moves to a spill slot, which frees its register, and the current interval takes
that. -/
theorem evict (h : AllocInv done now st) {current : Interval} (hnow : now = current.start)
    (hnew : ∀ i ∈ done, i.temp ≠ current.temp) (hfree : st.freeRegs = []) {victim : Active}
    (hvictim : (sortActive st.active).getLast? = some victim) :
    AllocInv (current :: done) now (st.evict current victim) := by
  have hsplit : (sortActive st.active).dropLast ++ [victim] = sortActive st.active :=
    List.dropLast_append_getLast? _ hvictim
  have hperm : ((sortActive st.active).dropLast ++ [victim]).Perm st.active := by
    rw [hsplit]
    exact sortActive_perm _
  have hloc := h.active_located victim (hperm.subset (by simp))
  obtain ⟨i, hi, hiv⟩ := (h.located victim.temp).mp (by simp [hloc])
  have hregs : ([victim.reg] ++ (sortActive st.active).dropLast.map (·.reg)).Perm allocatable := by
    refine List.Perm.trans ?_ h.regs
    rw [hfree, List.nil_append]
    refine List.Perm.trans ?_ (hperm.map _)
    rw [List.map_append]
    exact List.perm_append_comm
  -- the other active entries hold other registers, so they are for other temps
  have hothers : ∀ a ∈ (sortActive st.active).dropLast, a.temp ≠ victim.temp := by
    intro a ha heq
    have hla := h.active_located a (hperm.subset (List.mem_append_left _ ha))
    rw [heq, hloc] at hla
    have hnodup := (hregs.nodup_iff.mpr (by decide))
    rw [List.singleton_append, List.nodup_cons] at hnodup
    refine hnodup.1 (List.mem_map.mpr ⟨a, ha, ?_⟩)
    simpa using hla.symm
  have hmoved := h.moveToSpill done i (by grind) hregs (by
    intro a
    rw [← hperm.mem_iff, List.mem_append, List.mem_singleton, hiv]
    constructor
    · exact fun ha => ⟨.inl ha, hothers a ha⟩
    · rintro ⟨ha | rfl, hne⟩
      · exact ha
      · exact absurd rfl hne)
  have htake := hmoved.takeReg hnow hnew rfl
  rw [hiv] at htake
  have hne : victim.temp ≠ current.temp := hiv ▸ hnew i hi
  simpa [AllocState.evict, AllocState.takeReg, hfree, Function.update_comm hne] using htake

theorem assign (h : AllocInv done now st) {current : Interval} (hnow : now = current.start)
    (hnew : ∀ i ∈ done, i.temp ≠ current.temp) :
    AllocInv (current :: done) now (st.assign current) := by
  unfold AllocState.assign
  split
  · rename_i hfree
    exact h.takeReg hnow hnew hfree
  · rename_i hfree
    split
    · rename_i hvictim
      split
      · exact h.evict hnow hnew hfree hvictim
      · exact h.spill hnew
    · exact h.spill hnew

/-- The whole scan over intervals in the order of their starts. -/
theorem scan {todo : List Interval} (h : AllocInv done now st)
    (hsorted : todo.Pairwise (·.start ≤ ·.start)) (hnow : ∀ i ∈ todo, now ≤ i.start)
    (htemps : (todo.map (·.temp)).Nodup) (hnew : ∀ i ∈ done, ∀ j ∈ todo, i.temp ≠ j.temp) :
    ∃ now', AllocInv (todo.reverse ++ done) now' (st.scan todo) := by
  induction todo generalizing done now st with
  | nil => exact ⟨now, h⟩
  | cons current todo ih =>
      rw [List.pairwise_cons] at hsorted
      rw [List.map_cons, List.nodup_cons] at htemps
      have hstep : AllocInv (current :: done) current.start
          ((st.expireOld current).assign current) :=
        (h.expireOld (hnow current List.mem_cons_self)).assign rfl
          fun i hi => hnew i hi current List.mem_cons_self
      have := ih hstep hsorted.2 hsorted.1 htemps.2 (by
        intro i hi j hj
        rcases List.mem_cons.mp hi with rfl | hi
        · exact fun heq => htemps.1 (heq ▸ List.mem_map_of_mem hj)
        · exact hnew i hi j (List.mem_cons_of_mem _ hj))
      rw [List.reverse_cons, List.append_assoc]
      exact this

end AllocInv

/-! ## The result -/

theorem Ranges.interval_eq_some {r : Ranges} {t : ℕ} {i : Interval} :
    r.interval t = some i ↔ i.temp = t ∧ r.starts t = some i.start ∧ r.ends t = some i.stop := by
  cases i
  simp only [interval, Option.bind_eq_bind, Option.pure_def, Option.bind_eq_some_iff,
    Option.some.injEq, Interval.mk.injEq]
  grind

theorem mem_intervals {fn : IRFunction} {i : Interval} : i ∈ intervals fn ↔
    i.temp < fn.tempTypes.length ∧
      (liveRanges fn.instructions).starts i.temp = some i.start ∧
      (liveRanges fn.instructions).ends i.temp = some i.stop := by
  rw [intervals, List.mem_insertionSort, List.mem_filterMap]
  constructor
  · rintro ⟨t, ht, hi⟩
    obtain ⟨rfl, hs, he⟩ := Ranges.interval_eq_some.mp hi
    exact ⟨List.mem_range.mp ht, hs, he⟩
  · rintro ⟨ht, hs, he⟩
    exact ⟨i.temp, List.mem_range.mpr ht, Ranges.interval_eq_some.mpr ⟨rfl, hs, he⟩⟩

theorem intervals_sorted (fn : IRFunction) : (intervals fn).Pairwise (·.start ≤ ·.start) := by
  have hle : ∀ a b : Interval, a.le b → a.start ≤ b.start := by
    intro a b hab
    unfold Interval.le at hab
    split at hab
    · exact hab
    · rename_i h
      exact (not_not.mp h).le
  have : Std.Total Interval.le := ⟨fun a b => by unfold Interval.le; grind⟩
  have : IsTrans Interval Interval.le := ⟨fun a b c => by unfold Interval.le; grind⟩
  exact (List.pairwise_insertionSort Interval.le _).imp fun {a b} => hle a b

theorem intervals_temps_nodup (fn : IRFunction) : ((intervals fn).map (·.temp)).Nodup := by
  rw [intervals, ((List.perm_insertionSort _ _).map _).nodup_iff, List.map_filterMap]
  refine List.Nodup.filterMap ?_ List.nodup_range
  intro t u x hx hy
  obtain ⟨i, hi, rfl⟩ := Option.map_eq_some_iff.mp hx
  obtain ⟨j, hj, hji⟩ := Option.map_eq_some_iff.mp hy
  rw [← (Ranges.interval_eq_some.mp hi).1, ← (Ranges.interval_eq_some.mp hj).1, hji]

/-- The invariant of the scan at its end. -/
theorem allocateTemps_inv (fn : IRFunction) :
    ∃ now, AllocInv (intervals fn).reverse now (initialAlloc.scan (intervals fn)) := by
  obtain ⟨now, h⟩ := AllocInv.initial.scan (intervals_sorted fn) (fun _ _ => Nat.zero_le _)
    (intervals_temps_nodup fn) (by simp)
  exact ⟨now, by simpa using h⟩

section Result

variable {fn : IRFunction} {t u : ℕ}

theorem allocateTemps_located (ht : t < fn.tempTypes.length) {i : ℕ}
    (hocc : OccursAt fn.instructions i t) : (allocateTemps fn).locations t ≠ none := by
  obtain ⟨now, h⟩ := allocateTemps_inv fn
  obtain ⟨s, e, hs, he, _⟩ := liveRanges_of_occursAt hocc
  exact (h.located t).mpr ⟨⟨t, s, e⟩, by simpa using mem_intervals.mpr ⟨ht, hs, he⟩, rfl⟩

theorem allocateTemps_reg_mem {r : Reg} (h : (allocateTemps fn).locations t = some (.reg r)) :
    r ∈ allocatable := by
  obtain ⟨now, hinv⟩ := allocateTemps_inv fn
  exact hinv.reg_mem t r h

theorem allocateTemps_spill_lt {s : ℕ} (h : (allocateTemps fn).locations t = some (.spill s)) :
    s < (allocateTemps fn).spillCount := by
  obtain ⟨now, hinv⟩ := allocateTemps_inv fn
  exact hinv.spill_lt t s h

theorem allocateTemps_spill_inj {s : ℕ} (ht : (allocateTemps fn).locations t = some (.spill s))
    (hu : (allocateTemps fn).locations u = some (.spill s)) : t = u := by
  obtain ⟨now, h⟩ := allocateTemps_inv fn
  exact h.spill_inj t u s ht hu

theorem mem_collectRegs {locations : ℕ → Option Location} {r : Reg} (temps : List ℕ)
    (h : ∃ t ∈ temps, locations t = some (.reg r)) : r ∈ collectRegs locations temps := by
  rw [collectRegs]
  induction temps using List.reverseRecOn with
  | nil =>
      obtain ⟨t, ht, -⟩ := h
      exact absurd ht List.not_mem_nil
  | append_singleton temps u ih =>
      rw [List.foldl_append, List.foldl_cons, List.foldl_nil]
      obtain ⟨t, ht, hloc⟩ := h
      rcases List.mem_append.mp ht with ht | ht
      · have hr := ih ⟨t, ht, hloc⟩
        split
        · split
          · exact hr
          · exact List.mem_append_left _ hr
        · exact hr
      · cases List.mem_singleton.mp ht
        simp only [hloc]
        split
        next hin => exact hin
        next => exact List.mem_append_right _ (List.mem_singleton.mpr rfl)

/-- Every register that holds a temp is among those the prologue saves. -/
theorem allocateTemps_reg_used {r : Reg} (h : (allocateTemps fn).locations t = some (.reg r)) :
    r ∈ (allocateTemps fn).usedRegs := by
  obtain ⟨now, hinv⟩ := allocateTemps_inv fn
  have hloc : (initialAlloc.scan (intervals fn)).locations t = some (.reg r) := h
  obtain ⟨i, hi, rfl⟩ := (hinv.located t).mp (by simp [hloc])
  have hlt := (mem_intervals.mp (List.mem_reverse.mp hi)).1
  rw [allocateTemps, List.mem_insertionSort]
  exact mem_collectRegs _ ⟨i.temp, List.mem_range.mpr hlt, hloc⟩

/-- Two temps share a place only if the range of one ends before that of the other starts. -/
theorem allocateTemps_apart (hne : t ≠ u) (hloc : (allocateTemps fn).locations t ≠ none)
    (heq : (allocateTemps fn).locations t = (allocateTemps fn).locations u) :
    ∃ i ∈ intervals fn, ∃ j ∈ intervals fn, i.temp = t ∧ j.temp = u ∧ i.Apart j := by
  obtain ⟨now, h⟩ := allocateTemps_inv fn
  obtain ⟨loc, hi'⟩ := Option.ne_none_iff_exists'.mp hloc
  have hj' := heq.symm.trans hi'
  obtain ⟨i, hi, rfl⟩ := (h.located t).mp hloc
  obtain ⟨j, hj, rfl⟩ := (h.located u).mp (ne_of_eq_of_ne hj' (by simp))
  refine ⟨i, List.mem_reverse.mp hi, j, List.mem_reverse.mp hj, rfl, rfl, ?_⟩
  cases loc with
  | reg r => exact h.apart i hi j hj hne r hi' hj'
  | spill s => exact absurd (h.spill_inj _ _ s hi' hj') hne

end Result

end GatoCore.Native
