import Mathlib.Data.List.Chain
import Mathlib.Order.Nat

/-!
# Regions of structured code

A fact that holds when control enters some code may be ended by a position of the code (`kill`) and
may matter at others (`use`). A region is a range of positions that control enters at its start and
leaves at its end. It is described by three propositions: the fact may hold at the start, it may
still hold at the end, and it may still hold at some use. The rules below compute them for code put
together from sequences, branches and loops, exactly.
-/

namespace GatoCore.Lib

/-- The edges between the positions of a code, and the positions that end the fact or use it. -/
structure KillGraph where
  edge : ℕ → ℕ → Prop
  kill : ℕ → Prop
  use : ℕ → Prop

namespace KillGraph

variable (G : KillGraph)

/-- There is a path from `a` to `i` without a kill before `i`. -/
inductive Clear (a : ℕ) : ℕ → Prop
  | refl : Clear a a
  | step {i j : ℕ} : Clear a i → ¬ G.kill i → G.edge i j → Clear a j

/-- The positions of a region where the fact may still hold. -/
structure Marking (a b : ℕ) (entry exit used : Prop) (mark : ℕ → Prop) : Prop where
  le : a ≤ b
  start : entry → mark a
  closed : ∀ {i j : ℕ}, a ≤ i → i < b → mark i → ¬ G.kill i → G.edge i j →
    a ≤ j ∧ j ≤ b ∧ mark j
  clear : ∀ {i : ℕ}, a ≤ i → i ≤ b → mark i → entry ∧ G.Clear a i
  exit : mark b ↔ exit
  uses : (∃ i, a ≤ i ∧ i < b ∧ mark i ∧ G.use i) ↔ used

def Region (a b : ℕ) (entry exit used : Prop) : Prop :=
  ∃ mark, G.Marking a b entry exit used mark

/-- Control goes on with the next position, which neither ends nor uses the fact. -/
structure Plain (i : ℕ) : Prop where
  edge : ∀ {j : ℕ}, G.edge i j ↔ j = i + 1
  kill : ¬ G.kill i
  use : ¬ G.use i

/-- A jump to one of two positions. -/
structure Jump (i x y : ℕ) : Prop where
  edge : ∀ {j : ℕ}, G.edge i j ↔ j = x ∨ j = y
  kill : ¬ G.kill i
  use : ¬ G.use i

variable {G} {a b c m n : ℕ} {entry mid exit exit' used used' : Prop}

theorem Clear.trans (h : G.Clear a b) (h' : G.Clear b c) : G.Clear a c := by
  induction h' with
  | refl => exact h
  | step _ hkill hedge ih => exact ih.step hkill hedge

/-- The paths without a kill, written out. -/
theorem clear_iff_path {i : ℕ} : G.Clear a i ↔ ∃ path, List.IsChain G.edge (path ++ [i]) ∧
    (path ++ [i]).head? = some a ∧ ∀ k ∈ path, ¬ G.kill k := by
  constructor
  · intro h
    induction h with
    | refl => exact ⟨[], by simp, rfl, nofun⟩
    | @step i j _ hkill hij ih =>
        obtain ⟨path, hchain, hhead, hpath⟩ := ih
        refine ⟨path ++ [i], ?_, ?_, ?_⟩
        · rw [List.isChain_append]
          refine ⟨hchain, List.isChain_singleton j, ?_⟩
          simpa using hij
        · rw [List.head?_append, hhead]
          rfl
        · exact List.forall_mem_append.mpr ⟨hpath, List.forall_mem_singleton.mpr hkill⟩
  · rintro ⟨path, hchain, hhead, hpath⟩
    induction path using List.reverseRecOn generalizing i with
    | nil =>
        obtain rfl : i = a := by simpa using hhead
        exact .refl
    | append_singleton path k ih =>
        obtain ⟨hpath, hk⟩ := List.forall_mem_append.mp hpath
        obtain ⟨hchain', -, hedge⟩ := List.isChain_append.mp hchain
        have hki : G.edge k i := by simpa using hedge
        refine (ih hchain' ?_ hpath).step (hk k List.mem_cons_self) hki
        rw [List.head?_append] at hhead
        obtain ⟨x, hx⟩ : ∃ x, (path ++ [k]).head? = some x := by
          cases path <;> exact ⟨_, rfl⟩
        rw [hx] at hhead ⊢
        exact hhead

namespace Region

theorem le (h : G.Region a b entry exit used) : a ≤ b := by
  obtain ⟨_, h⟩ := h
  exact h.le

theorem congr (h : G.Region a b entry exit used) (hexit : exit ↔ exit') (hused : used ↔ used') :
    G.Region a b entry exit' used' := by
  rwa [← propext hexit, ← propext hused]

/-- The fact holds at the end only if it holds at the start. -/
theorem entry_of_exit (h : G.Region a b entry exit used) (hexit : exit) : entry := by
  obtain ⟨mark, h⟩ := h
  exact (h.clear h.le le_rfl (h.exit.mpr hexit)).1

theorem entry_of_used (h : G.Region a b entry exit used) (hused : used) : entry := by
  obtain ⟨mark, h⟩ := h
  obtain ⟨i, hi, hi', hmark, -⟩ := h.uses.mpr hused
  exact (h.clear hi hi'.le hmark).1

/-! ## One position -/

theorem refl (a : ℕ) (entry : Prop) : G.Region a a entry entry False := by
  refine ⟨fun _ => entry, le_rfl, id, ?_, ?_, Iff.rfl, ?_⟩
  · intro i j hi hi'
    omega
  · intro i hi hi' hentry
    obtain rfl : i = a := by omega
    exact ⟨hentry, .refl⟩
  · rw [iff_false]
    rintro ⟨i, hi, hi', -⟩
    omega

/-- A position that control passes. -/
theorem next (hedge : ∀ {j : ℕ}, G.edge a j ↔ j = a + 1) (hkill : ¬ G.kill a) (entry : Prop) :
    G.Region a (a + 1) entry entry (entry ∧ G.use a) := by
  refine ⟨fun _ => entry, Nat.le_succ a, id, ?_, ?_, Iff.rfl, ?_⟩
  · intro i j hi hi' hentry _ hij
    obtain rfl : i = a := by omega
    have hj := hedge.mp hij
    exact ⟨by omega, by omega, hentry⟩
  · intro i hi hi' hentry
    refine ⟨hentry, ?_⟩
    rcases Nat.lt_or_ge a i with hlt | hge
    · obtain rfl : i = a + 1 := by omega
      exact Clear.refl.step hkill (hedge.mpr rfl)
    · obtain rfl : i = a := by omega
      exact .refl
  · constructor
    · rintro ⟨i, hi, hi', hentry, huse⟩
      obtain rfl : i = a := by omega
      exact ⟨hentry, huse⟩
    · rintro ⟨hentry, huse⟩
      exact ⟨a, le_rfl, Nat.lt_succ_self a, hentry, huse⟩

/-- A position that ends the fact, or the path. -/
theorem stop (hstop : ∀ {j : ℕ}, G.edge a j → G.kill a) (entry : Prop) :
    G.Region a (a + 1) entry False (entry ∧ G.use a) := by
  refine ⟨fun i => i = a ∧ entry, Nat.le_succ a, fun h => ⟨rfl, h⟩, ?_, ?_, ?_, ?_⟩
  · rintro i j hi hi' ⟨rfl, hentry⟩ hkill hij
    exact absurd (hstop hij) hkill
  · rintro i hi hi' ⟨rfl, hentry⟩
    exact ⟨hentry, .refl⟩
  · simp
  · constructor
    · rintro ⟨i, hi, hi', ⟨rfl, hentry⟩, huse⟩
      exact ⟨hentry, huse⟩
    · rintro ⟨hentry, huse⟩
      exact ⟨a, le_rfl, Nat.lt_succ_self a, ⟨rfl, hentry⟩, huse⟩

theorem plain (h : G.Plain a) (entry : Prop) : G.Region a (a + 1) entry entry False :=
  (next h.edge h.kill entry).congr Iff.rfl (by simp [h.use])

/-! ## Sequences -/

/-- One region after the other. -/
theorem trans (h : G.Region a b entry mid used) (h' : G.Region b c mid exit used') :
    G.Region a c entry exit (used ∨ used') := by
  obtain ⟨mark, h⟩ := h
  obtain ⟨mark', h'⟩ := h'
  have hab := h.le
  have hbc := h'.le
  refine ⟨fun i => if i < b then mark i else mark' i, hab.trans hbc, ?_, ?_, ?_, ?_, ?_⟩
  · intro hentry
    split
    · exact h.start hentry
    · obtain rfl : a = b := by omega
      exact h'.start (h.exit.mp (h.start hentry))
  · intro i j hi hi' hmark hkill hij
    split at hmark
    · next hib =>
        obtain ⟨haj, hjb, hj⟩ := h.closed hi hib hmark hkill hij
        refine ⟨haj, hjb.trans hbc, ?_⟩
        split
        · exact hj
        · obtain rfl : j = b := by omega
          exact h'.start (h.exit.mp hj)
    · obtain ⟨hbj, hjc, hj⟩ := h'.closed (by omega) hi' hmark hkill hij
      refine ⟨by omega, hjc, ?_⟩
      rw [if_neg (by omega)]
      exact hj
  · intro i hi hi' hmark
    split at hmark
    · exact h.clear hi (by omega) hmark
    · obtain ⟨hmid, hclear⟩ := h'.clear (by omega) hi' hmark
      obtain ⟨hentry, hclear'⟩ := h.clear hab le_rfl (h.exit.mpr hmid)
      exact ⟨hentry, hclear'.trans hclear⟩
  · rw [if_neg (by omega)]
    exact h'.exit
  · rw [← h.uses, ← h'.uses]
    constructor
    · rintro ⟨i, hi, hi', hmark, huse⟩
      split at hmark
      · next hib => exact .inl ⟨i, hi, hib, hmark, huse⟩
      · exact .inr ⟨i, by omega, hi', hmark, huse⟩
    · rintro (⟨i, hi, hib, hmark, huse⟩ | ⟨i, hbi, hi', hmark, huse⟩)
      · exact ⟨i, hi, by omega, by rw [if_pos hib]; exact hmark, huse⟩
      · exact ⟨i, by omega, hi', by rw [if_neg (by omega)]; exact hmark, huse⟩

/-! ## Branches and loops -/

/-- `br`, a label, the first branch, `jmp`, a label, the second branch, a label. -/
theorem branch {left right : Prop} (hbr : G.Jump a (a + 1) (m + 1)) (hthen : G.Plain (a + 1))
    (h : G.Region (a + 2) m entry left used) (hjmp : G.Jump m n n) (helse : G.Plain (m + 1))
    (h' : G.Region (m + 2) n entry right used') (hend : G.Plain n) :
    G.Region a (n + 1) entry (left ∨ right) (used ∨ used') := by
  obtain ⟨mark, h⟩ := h
  obtain ⟨mark', h'⟩ := h'
  have ham := h.le
  have hmn := h'.le
  have hclearThen : G.Clear a (a + 2) :=
    (Clear.refl.step hbr.kill (hbr.edge.mpr (.inl rfl))).step hthen.kill (hthen.edge.mpr rfl)
  have hclearElse : G.Clear a (m + 2) :=
    (Clear.refl.step hbr.kill (hbr.edge.mpr (.inr rfl))).step helse.kill (helse.edge.mpr rfl)
  -- the marks of the two branches, and those of the positions around them
  let marked (i : ℕ) : Prop :=
    (i = a ∨ i = a + 1 ∨ i = m + 1) ∧ entry ∨ (a + 2 ≤ i ∧ i ≤ m) ∧ mark i ∨
      (m + 2 ≤ i ∧ i < n) ∧ mark' i ∨ (i = n ∨ i = n + 1) ∧ (left ∨ right)
  have hentryOfLeft : left → entry ∧ G.Clear a n := by
    intro hleft
    obtain ⟨hentry, hclear⟩ := h.clear ham le_rfl (h.exit.mpr hleft)
    exact ⟨hentry, (hclearThen.trans hclear).step hjmp.kill (hjmp.edge.mpr (.inl rfl))⟩
  have hentryOfRight : right → entry ∧ G.Clear a n := by
    intro hright
    obtain ⟨hentry, hclear⟩ := h'.clear hmn le_rfl (h'.exit.mpr hright)
    exact ⟨hentry, hclearElse.trans hclear⟩
  refine ⟨marked, by omega, fun hentry => .inl ⟨.inl rfl, hentry⟩, ?_, ?_, ?_, ?_⟩
  · rintro i j hi hi' (⟨rfl | rfl | rfl, hentry⟩ | ⟨⟨hlo, hhi⟩, hmark⟩ | ⟨⟨hlo, hhi⟩, hmark⟩ |
      ⟨rfl | rfl, hexit⟩) hkill hij
    · rcases hbr.edge.mp hij with rfl | rfl
      · exact ⟨by omega, by omega, .inl ⟨.inr (.inl rfl), hentry⟩⟩
      · exact ⟨by omega, by omega, .inl ⟨.inr (.inr rfl), hentry⟩⟩
    · obtain rfl := hthen.edge.mp hij
      exact ⟨by omega, by omega, .inr (.inl ⟨⟨le_rfl, ham⟩, h.start hentry⟩)⟩
    · obtain rfl := helse.edge.mp hij
      refine ⟨by omega, by omega, ?_⟩
      have hstart := h'.start hentry
      rcases Nat.lt_or_ge (m + 2) n with hlt | hge
      · exact .inr (.inr (.inl ⟨⟨le_rfl, hlt⟩, hstart⟩))
      · obtain rfl : n = m + 2 := by omega
        exact .inr (.inr (.inr ⟨.inl rfl, .inr (h'.exit.mp hstart)⟩))
    · rcases Nat.lt_or_ge i m with hlt | hge
      · obtain ⟨haj, hjm, hj⟩ := h.closed hlo hlt hmark hkill hij
        exact ⟨by omega, by omega, .inr (.inl ⟨⟨haj, hjm⟩, hj⟩)⟩
      · obtain rfl : i = m := by omega
        obtain rfl : j = n := by simpa using hjmp.edge.mp hij
        exact ⟨by omega, by omega, .inr (.inr (.inr ⟨.inl rfl, .inl (h.exit.mp hmark)⟩))⟩
    · obtain ⟨hmj, hjn, hj⟩ := h'.closed hlo hhi hmark hkill hij
      refine ⟨by omega, by omega, ?_⟩
      rcases Nat.lt_or_ge j n with hlt | hge
      · exact .inr (.inr (.inl ⟨⟨hmj, hlt⟩, hj⟩))
      · obtain rfl : j = n := by omega
        exact .inr (.inr (.inr ⟨.inl rfl, .inr (h'.exit.mp hj)⟩))
    · obtain rfl := hend.edge.mp hij
      exact ⟨by omega, le_rfl, .inr (.inr (.inr ⟨.inr rfl, hexit⟩))⟩
    · omega
  · rintro i hi hi' (⟨rfl | rfl | rfl, hentry⟩ | ⟨⟨hlo, hhi⟩, hmark⟩ | ⟨⟨hlo, hhi⟩, hmark⟩ |
      ⟨rfl | rfl, hexit⟩)
    · exact ⟨hentry, .refl⟩
    · exact ⟨hentry, Clear.refl.step hbr.kill (hbr.edge.mpr (.inl rfl))⟩
    · exact ⟨hentry, Clear.refl.step hbr.kill (hbr.edge.mpr (.inr rfl))⟩
    · obtain ⟨hentry, hclear⟩ := h.clear hlo hhi hmark
      exact ⟨hentry, hclearThen.trans hclear⟩
    · obtain ⟨hentry, hclear⟩ := h'.clear hlo hhi.le hmark
      exact ⟨hentry, hclearElse.trans hclear⟩
    · exact hexit.elim hentryOfLeft hentryOfRight
    · obtain ⟨hentry, hclear⟩ := hexit.elim hentryOfLeft hentryOfRight
      exact ⟨hentry, hclear.step hend.kill (hend.edge.mpr rfl)⟩
  · constructor
    · rintro (⟨hi, -⟩ | ⟨hi, -⟩ | ⟨hi, -⟩ | ⟨-, hexit⟩)
      · omega
      · omega
      · omega
      · exact hexit
    · exact fun hexit => .inr (.inr (.inr ⟨.inr rfl, hexit⟩))
  · rw [← h.uses, ← h'.uses]
    constructor
    · rintro ⟨i, hi, hi', ⟨rfl | rfl | rfl, -⟩ | ⟨⟨hlo, hhi⟩, hmark⟩ | ⟨⟨hlo, hhi⟩, hmark⟩ |
        ⟨rfl | rfl, -⟩, huse⟩
      · exact absurd huse hbr.use
      · exact absurd huse hthen.use
      · exact absurd huse helse.use
      · rcases Nat.lt_or_ge i m with hlt | hge
        · exact .inl ⟨i, hlo, hlt, hmark, huse⟩
        · obtain rfl : i = m := by omega
          exact absurd huse hjmp.use
      · exact .inr ⟨i, hlo, hhi, hmark, huse⟩
      · exact absurd huse hend.use
      · omega
    · rintro (⟨i, hi, hi', hmark, huse⟩ | ⟨i, hi, hi', hmark, huse⟩)
      · exact ⟨i, by omega, by omega, .inr (.inl ⟨⟨hi, hi'.le⟩, hmark⟩), huse⟩
      · exact ⟨i, by omega, by omega, .inr (.inr (.inl ⟨⟨hi, hi'⟩, hmark⟩)), huse⟩

/-- A label, the test, `br`, a label, the body, `jmp` back to the first label, a label. -/
theorem loop (hhead : G.Plain a) (h : G.Region (a + 1) m entry entry used)
    (hbr : G.Jump m (m + 1) (n + 1)) (hbody : G.Plain (m + 1))
    (h' : G.Region (m + 2) n entry exit used') (hjmp : G.Jump n a a) (hend : G.Plain (n + 1)) :
    G.Region a (n + 2) entry entry (used ∨ used') := by
  have hback := h'.entry_of_exit
  obtain ⟨mark, h⟩ := h
  obtain ⟨mark', h'⟩ := h'
  have ham := h.le
  have hmn := h'.le
  have hclearTest : entry → G.Clear a m := fun hentry =>
    (Clear.refl.step hhead.kill (hhead.edge.mpr rfl)).trans
      (h.clear ham le_rfl (h.exit.mpr hentry)).2
  -- the marks of the test and of the body, and those of the positions around them
  let marked (i : ℕ) : Prop :=
    (i = a ∨ i = m + 1 ∨ i = n + 1 ∨ i = n + 2) ∧ entry ∨ (a + 1 ≤ i ∧ i ≤ m) ∧ mark i ∨
      (m + 2 ≤ i ∧ i ≤ n) ∧ mark' i
  refine ⟨marked, by omega, fun hentry => .inl ⟨.inl rfl, hentry⟩, ?_, ?_, ?_, ?_⟩
  · rintro i j hi hi' (⟨rfl | rfl | rfl | rfl, hentry⟩ | ⟨⟨hlo, hhi⟩, hmark⟩ |
      ⟨⟨hlo, hhi⟩, hmark⟩) hkill hij
    · obtain rfl := hhead.edge.mp hij
      exact ⟨by omega, by omega, .inr (.inl ⟨⟨le_rfl, ham⟩, h.start hentry⟩)⟩
    · obtain rfl := hbody.edge.mp hij
      exact ⟨by omega, by omega, .inr (.inr ⟨⟨le_rfl, hmn⟩, h'.start hentry⟩)⟩
    · obtain rfl := hend.edge.mp hij
      exact ⟨by omega, le_rfl, .inl ⟨.inr (.inr (.inr rfl)), hentry⟩⟩
    · omega
    · rcases Nat.lt_or_ge i m with hlt | hge
      · obtain ⟨haj, hjm, hj⟩ := h.closed hlo hlt hmark hkill hij
        exact ⟨by omega, by omega, .inr (.inl ⟨⟨haj, hjm⟩, hj⟩)⟩
      · obtain rfl : i = m := by omega
        have hentry := h.exit.mp hmark
        rcases hbr.edge.mp hij with rfl | rfl
        · exact ⟨by omega, by omega, .inl ⟨.inr (.inl rfl), hentry⟩⟩
        · exact ⟨by omega, by omega, .inl ⟨.inr (.inr (.inl rfl)), hentry⟩⟩
    · rcases Nat.lt_or_ge i n with hlt | hge
      · obtain ⟨hmj, hjn, hj⟩ := h'.closed hlo hlt hmark hkill hij
        exact ⟨by omega, by omega, .inr (.inr ⟨⟨hmj, hjn⟩, hj⟩)⟩
      · obtain rfl : i = n := by omega
        -- the jump back: the head is marked already
        obtain rfl : j = a := by simpa using hjmp.edge.mp hij
        exact ⟨le_rfl, by omega, .inl ⟨.inl rfl, hback (h'.exit.mp hmark)⟩⟩
  · rintro i hi hi' (⟨rfl | rfl | rfl | rfl, hentry⟩ | ⟨⟨hlo, hhi⟩, hmark⟩ |
      ⟨⟨hlo, hhi⟩, hmark⟩)
    · exact ⟨hentry, .refl⟩
    · exact ⟨hentry, (hclearTest hentry).step hbr.kill (hbr.edge.mpr (.inl rfl))⟩
    · exact ⟨hentry, (hclearTest hentry).step hbr.kill (hbr.edge.mpr (.inr rfl))⟩
    · exact ⟨hentry, ((hclearTest hentry).step hbr.kill (hbr.edge.mpr (.inr rfl))).step hend.kill
        (hend.edge.mpr rfl)⟩
    · obtain ⟨hentry, hclear⟩ := h.clear hlo hhi hmark
      exact ⟨hentry, (Clear.refl.step hhead.kill (hhead.edge.mpr rfl)).trans hclear⟩
    · obtain ⟨hentry, hclear⟩ := h'.clear hlo hhi hmark
      refine ⟨hentry, Clear.trans ?_ hclear⟩
      exact ((hclearTest hentry).step hbr.kill (hbr.edge.mpr (.inl rfl))).step hbody.kill
        (hbody.edge.mpr rfl)
  · constructor
    · rintro (⟨-, hentry⟩ | ⟨hi, -⟩ | ⟨hi, -⟩)
      · exact hentry
      · omega
      · omega
    · exact fun hentry => .inl ⟨.inr (.inr (.inr rfl)), hentry⟩
  · rw [← h.uses, ← h'.uses]
    constructor
    · rintro ⟨i, hi, hi', ⟨rfl | rfl | rfl | rfl, -⟩ | ⟨⟨hlo, hhi⟩, hmark⟩ |
        ⟨⟨hlo, hhi⟩, hmark⟩, huse⟩
      · exact absurd huse hhead.use
      · exact absurd huse hbody.use
      · exact absurd huse hend.use
      · omega
      · rcases Nat.lt_or_ge i m with hlt | hge
        · exact .inl ⟨i, hlo, hlt, hmark, huse⟩
        · obtain rfl : i = m := by omega
          exact absurd huse hbr.use
      · rcases Nat.lt_or_ge i n with hlt | hge
        · exact .inr ⟨i, hlo, hlt, hmark, huse⟩
        · obtain rfl : i = n := by omega
          exact absurd huse hjmp.use
    · rintro (⟨i, hi, hi', hmark, huse⟩ | ⟨i, hi, hi', hmark, huse⟩)
      · exact ⟨i, by omega, by omega, .inr (.inl ⟨⟨hi, hi'.le⟩, hmark⟩), huse⟩
      · exact ⟨i, by omega, by omega, .inr (.inr ⟨⟨hi, hi'.le⟩, hmark⟩), huse⟩

/-! ## Whole programs -/

/-- The uses that a path from the start reaches without a kill. -/
theorem uses_iff (h : G.Region 0 b entry exit used) (hentry : entry)
    (hend : ∀ {j : ℕ}, ¬ G.edge b j) : (∃ i, i < b ∧ G.Clear 0 i ∧ G.use i) ↔ used := by
  obtain ⟨mark, h⟩ := h
  have hmark : ∀ {i : ℕ}, G.Clear 0 i → i ≤ b ∧ mark i := by
    intro i hclear
    induction hclear with
    | refl => exact ⟨h.le, h.start hentry⟩
    | @step i j _ hkill hij ih =>
        rcases Nat.lt_or_ge i b with hlt | hge
        · exact (h.closed (Nat.zero_le i) hlt ih.2 hkill hij).2
        · obtain rfl : i = b := by omega
          exact absurd hij hend
  rw [← h.uses]
  constructor
  · rintro ⟨i, hi, hclear, huse⟩
    exact ⟨i, Nat.zero_le i, hi, (hmark hclear).2, huse⟩
  · rintro ⟨i, -, hi, hi', huse⟩
    exact ⟨i, hi, (h.clear (Nat.zero_le i) hi.le hi').2, huse⟩

end Region

end KillGraph

end GatoCore.Lib
