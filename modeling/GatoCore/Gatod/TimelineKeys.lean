import GatoCore.Gatod.Timeline
import GatoCore.Lib.Lists
import Mathlib.Tactic.Linarith

/-!
# Well-formed keys of the timeline

A track is well formed when it has keys, in increasing frames of the animation. An edit can break
this in three ways: a key is added where the cursor is at a key already, a key is removed by an
index the track does not have, or a key is moved between two others that leave no room.
-/

namespace GatoCore.Gatod

open GatoCore.Lib GatoCore.Stdlib Timeline

structure Track.WellFormed (last : ℚ) (t : Track) : Prop where
  ne_nil : t.keys ≠ []
  increasing : Increasing Key.frame t.keys
  inside : ∀ k ∈ t.keys, 0 ≤ k.frame ∧ k.frame ≤ last

def Timeline.WellFormed (fl : ℚ → ℚ) (s : Timeline) : Prop :=
  ∀ t ∈ s.trilhas, t.WellFormed (lastFrame fl s.duracao_frames)

/-- One key more, one key with another frame, or one key less. -/
inductive KeyEdit (fl : ℚ → ℚ) (s : Timeline) : TimelineEvent → List Key → List Key → Prop
  | add (pre post : List Key) (value : ℚ) :
      KeyEdit fl s .add (pre ++ post) (pre ++ ⟨s.cursor, value⟩ :: post)
  | move (delta : JsNumber) (pre post : List Key) (k : Key) (frame : ℚ)
      (h : clampFrame fl k.frame ((pre.getLast?.map fun p => fl (p.frame + 1)).getD 0)
        ((post.head?.map fun n => fl (n.frame - 1)).getD
          (max 0 (lastFrame fl s.duracao_frames))) delta = some frame)
      (hmoved : frame ≠ k.frame) :
      KeyEdit fl s (.move delta) (pre ++ k :: post) (pre ++ { k with frame := frame } :: post)
  | remove (pre post : List Key) (k : Key) : KeyEdit fl s .remove (pre ++ k :: post) (pre ++ post)

/-- The event edits one key of the selected track and nothing else of the tracks. -/
def ChangesOneKey (fl : ℚ → ℚ) (s : Timeline) (e : TimelineEvent) (s' : Timeline) : Prop :=
  ∃ i t keys, s.selectedTimelineTrack = some t ∧ s.trilhas[i]? = some t ∧
    KeyEdit fl s e t.keys keys ∧ s'.trilhas = s.trilhas.set i { t with keys := keys }

/-! ## When an edit is sound -/

/-- Between the neighbours of the key at `i`, or after its only one, is a frame the key may have;
the frames next to the neighbours are not rounded back to them. -/
structure HasRoom (fl : ℚ → ℚ) (last : ℚ) (keys : List Key) (i : ℕ) : Prop where
  before : ∀ prev, 0 < i → keys[i - 1]? = some prev →
    prev.frame < fl (prev.frame + 1) ∧
      match keys[i + 1]? with
      | some next => fl (prev.frame + 1) < next.frame
      | none => fl (prev.frame + 1) ≤ last
  after : ∀ next, keys[i + 1]? = some next → fl (next.frame - 1) < next.frame

/-- The delta leads a key at `frame` to another frame between `lo` and `hi`: up, below the highest
one, or down, above the lowest one. A key outside is led back. -/
def LeadsAway (fl : ℚ → ℚ) (frame lo hi : ℚ) : JsNumber → Prop
  | .nan => False
  | .infinity negative => if negative then frame ≠ lo else frame ≠ max lo hi
  | .finite delta =>
      frame < lo ∨ max lo hi < frame ∨ (fl (frame + delta) < frame ∧ lo < frame) ∨
        (frame < fl (frame + delta) ∧ frame < max lo hi)

/-- A key is added inside the animation at a frame without a key, one that is moved has room and is
led somewhere, and one that is removed is there. -/
def TimelineEvent.Sound (fl : ℚ → ℚ) (s : Timeline) : TimelineEvent → Prop
  | .add => ∀ t, s.selectedTimelineTrack = some t →
      0 ≤ s.cursor ∧ s.cursor ≤ lastFrame fl s.duracao_frames ∧ ∀ k ∈ t.keys, k.frame ≠ s.cursor
  | .move delta => ∀ t, s.selectedTimelineTrack = some t →
      let i := min s.key_index (t.keys.length - 1)
      HasRoom fl (lastFrame fl s.duracao_frames) t.keys i ∧
        ∀ k, t.keys[i]? = some k →
          LeadsAway fl k.frame (minFrame fl t.keys i) (maxFrame fl t.keys i s.duracao_frames) delta
  | .remove => ∀ t, s.selectedTimelineTrack = some t →
      t.keys.length ≤ 1 ∨ s.key_index < t.keys.length
  | _ => True

/-- The event is sound where it happens. -/
def AllSound (fl : ℚ → ℚ) (s : Timeline) (events : List TimelineEvent) : Prop :=
  ∀ pre e post, events = pre ++ e :: post → ∀ w, timelineRun fl s pre = some w → e.Sound fl w

/-- Every state of the run has well-formed tracks, and every edit that says so changes one key. -/
structure KeysStayWellFormed (fl : ℚ → ℚ) (s : Timeline) (events : List TimelineEvent) : Prop where
  reached : ∀ pre post, events = pre ++ post →
    ∃ w, timelineRun fl s pre = some w ∧ w.WellFormed fl
  edits : ∀ pre e post, events = pre ++ e :: post → ∀ w w', timelineRun fl s pre = some w →
    timelineEvent fl w e = some (w', true) → ChangesOneKey fl w e w'

/-- Keys at whole frames always have room, as long as a double holds the whole numbers around
them. -/
theorem hasRoom_of_whole {fl : ℚ → ℚ} {last : ℚ} {t : Track} (h : t.WellFormed last)
    (hwhole : ∀ k ∈ t.keys, ∃ n : ℤ, k.frame = n)
    (hfl : ∀ n : ℤ, -1 ≤ n → (n : ℚ) ≤ last + 1 → fl n = n) {i : ℕ} (hi : i < t.keys.length) :
    HasRoom fl last t.keys i := by
  have hstep : ∀ m n : ℤ, (m : ℚ) < n → (m : ℚ) + 1 ≤ n := by
    intro m n hmn
    exact_mod_cast Int.add_one_le_iff.mpr (by exact_mod_cast hmn)
  -- whole frames are not rounded
  have hround : ∀ k ∈ t.keys, fl (k.frame + 1) = k.frame + 1 ∧ fl (k.frame - 1) = k.frame - 1 := by
    intro k hk
    obtain ⟨n, hn⟩ := hwhole k hk
    obtain ⟨hpos, hle⟩ := h.inside k hk
    rw [hn] at hpos hle ⊢
    have hnonneg : 0 ≤ n := by exact_mod_cast hpos
    constructor
    · have hup := hfl (n + 1) (by omega) (by push_cast; linarith)
      push_cast at hup
      exact hup
    · have hdown := hfl (n - 1) (by omega) (by push_cast; linarith)
      push_cast at hdown
      exact hdown
  constructor
  · intro prev hpos hprev
    obtain ⟨hbound, rfl⟩ := List.getElem?_eq_some_iff.mp hprev
    rw [(hround _ (List.getElem_mem hbound)).1]
    have hbefore : t.keys[i - 1].frame + 1 ≤ t.keys[i].frame := by
      have hlt := List.pairwise_iff_getElem.mp h.increasing (i - 1) i hbound hi (by omega)
      obtain ⟨m, hm⟩ := hwhole _ (List.getElem_mem hbound)
      obtain ⟨n, hn⟩ := hwhole _ (List.getElem_mem hi)
      rw [hm, hn] at hlt ⊢
      exact hstep m n hlt
    refine ⟨by linarith, ?_⟩
    split
    · rename_i next hnext
      obtain ⟨hlast, rfl⟩ := List.getElem?_eq_some_iff.mp hnext
      have hafter := List.pairwise_iff_getElem.mp h.increasing i (i + 1) hi hlast (by omega)
      linarith
    · have hin := (h.inside _ (List.getElem_mem hi)).2
      linarith
  · intro next hnext
    rw [(hround next (List.mem_of_getElem? hnext)).2]
    linarith

/-! ## The selected track -/

section Selected

variable {fl : ℚ → ℚ} {s : Timeline} {t : Track}

theorem getElem?_of_selected (h : s.selectedTimelineTrack = some t) :
    s.trilhas[min s.track_index (s.trilhas.length - 1)]? = some t := h

theorem Timeline.WellFormed.selected (hs : s.WellFormed fl)
    (h : s.selectedTimelineTrack = some t) : t.WellFormed (lastFrame fl s.duracao_frames) :=
      hs t (List.mem_of_getElem? (getElem?_of_selected h))

theorem wellFormed_set {i : ℕ} {keys : List Key} (hs : s.WellFormed fl)
    (h : ({ t with keys := keys } : Track).WellFormed (lastFrame fl s.duracao_frames)) :
    ∀ t' ∈ s.trilhas.set i { t with keys := keys },
      t'.WellFormed (lastFrame fl s.duracao_frames) := by
  intro t' ht'
  rcases List.mem_or_eq_of_mem_set ht' with hmem | rfl
  · exact hs t' hmem
  · exact h

end Selected

/-! ## Adding and removing -/

section Edits

variable {fl : ℚ → ℚ} {last : ℚ} {t : Track} {pre post : List Key} {k : Key}

theorem Track.WellFormed.insert {keys : List Key} (h : t.WellFormed last)
    (hkeys : t.keys = pre ++ post) (hnew : keys = pre ++ k :: post)
    (hincreasing : Increasing Key.frame (pre ++ k :: post))
    (hk : 0 ≤ k.frame ∧ k.frame ≤ last) :
    ({ t with keys := keys } : Track).WellFormed last := by
  subst hnew
  refine ⟨by simp, hincreasing, ?_⟩
  intro a ha
  rcases List.mem_append.mp ha with hmem | hmem
  · exact h.inside a (hkeys ▸ List.mem_append_left _ hmem)
  · rcases List.mem_cons.mp hmem with rfl | hmem
    · exact hk
    · exact h.inside a (hkeys ▸ List.mem_append_right _ hmem)

theorem Track.WellFormed.erase {keys : List Key} (h : t.WellFormed last)
    (hkeys : t.keys = pre ++ k :: post) (hnew : keys = pre ++ post) (hne : keys ≠ []) :
    ({ t with keys := keys } : Track).WellFormed last := by
  subst hnew
  refine ⟨hne, (hkeys ▸ h.increasing : Increasing Key.frame (pre ++ k :: post)).erase, ?_⟩
  intro a ha
  refine h.inside a (hkeys ▸ ?_)
  rcases List.mem_append.mp ha with hmem | hmem
  · exact List.mem_append_left _ hmem
  · exact List.mem_append_right _ (List.mem_cons_of_mem _ hmem)

/-- A list around one of its elements. -/
theorem eq_around {keys : List Key} {i : ℕ} (h : keys[i]? = some k) :
    ∃ pre post, keys = pre ++ k :: post ∧ pre.length = i := by
  obtain ⟨hi, rfl⟩ := List.getElem?_eq_some_iff.mp h
  refine ⟨keys.take i, keys.drop (i + 1), ?_, List.length_take_of_le hi.le⟩
  rw [List.cons_getElem_drop_succ, List.take_append_drop]

theorem getElem?_after : (pre ++ k :: post)[pre.length + 1]? = post.head? := by
  cases post <;> simp

theorem minFrame_around : minFrame fl (pre ++ k :: post) pre.length =
    (pre.getLast?.map fun p => fl (p.frame + 1)).getD 0 := by
  rcases List.eq_nil_or_concat' pre with rfl | ⟨pre, p, rfl⟩
  · rfl
  · simp [minFrame]

theorem maxFrame_around {duracao_frames : ℚ} :
    maxFrame fl (pre ++ k :: post) pre.length duracao_frames =
      (post.head?.map fun n => fl (n.frame - 1)).getD (max 0 (lastFrame fl duracao_frames)) := by
  rw [maxFrame, getElem?_after]

theorem clampFrame_eq {frame lo hi f : ℚ} {delta : JsNumber}
    (h : clampFrame fl frame lo hi delta = some f) : lo ≤ f ∧ f ≤ max lo hi := by
  cases delta with
  | nan => cases h
  | infinity negative =>
      obtain rfl := Option.some.inj h
      cases negative
      · exact ⟨le_max_left _ _, le_refl _⟩
      · exact ⟨le_refl _, le_max_left _ _⟩
  | finite q =>
      obtain rfl := Option.some.inj h
      exact ⟨le_max_left _ _, max_le_max (le_refl _) (min_le_left _ _)⟩

/-- A delta gives a number that is not the frame of the key exactly when it leads away from it. -/
theorem leadsAway_iff {frame lo hi : ℚ} {delta : JsNumber} :
    LeadsAway fl frame lo hi delta ↔
      ∃ f, clampFrame fl frame lo hi delta = some f ∧ f ≠ frame := by
  cases delta with
  | nan => simp [LeadsAway, clampFrame]
  | infinity negative => cases negative <;> simp [LeadsAway, clampFrame, eq_comm]
  | finite q =>
      simp only [LeadsAway, clampFrame, Option.some.injEq, exists_eq_left', ne_eq]
      generalize fl (frame + q) = x
      rcases le_total lo hi with h | h <;> rcases lt_trichotomy x frame with hx | hx | hx <;>
        rcases le_total hi x with hhi | hhi <;> grind

/-- What room means for the keys around the one at `pre.length`. -/
theorem room_around {keys : List Key} (h : HasRoom fl last keys pre.length)
    (hkeys : keys = pre ++ k :: post) (a : Key) (ha : pre.getLast? = some a) :
    a.frame < fl (a.frame + 1) ∧ (∀ b, post.head? = some b → fl (a.frame + 1) < b.frame) ∧
      (post.head? = none → fl (a.frame + 1) ≤ last) := by
  obtain ⟨pre, rfl⟩ := List.getLast?_eq_some_iff.mp ha
  obtain ⟨hup, hprev⟩ := h.before a (by simp) (by simp [hkeys])
  rw [hkeys, getElem?_after] at hprev
  refine ⟨hup, ?_, ?_⟩
  · intro b hb
    rwa [hb] at hprev
  · intro hb
    rwa [hb] at hprev

/-- A key that has room stays between its neighbours. -/
theorem Track.WellFormed.move {keys : List Key} (h : t.WellFormed last)
    (hkeys : t.keys = pre ++ k :: post) (hroom : HasRoom fl last t.keys pre.length)
    {delta : JsNumber} {f : ℚ}
    (hf : clampFrame fl k.frame ((pre.getLast?.map fun p => fl (p.frame + 1)).getD 0)
      ((post.head?.map fun n => fl (n.frame - 1)).getD (max 0 last)) delta = some f)
    (hnew : keys = pre ++ { k with frame := f } :: post) :
    ({ t with keys := keys } : Track).WellFormed last := by
  subst hnew
  have hincreasing : Increasing Key.frame (pre ++ k :: post) := hkeys ▸ h.increasing
  obtain ⟨hrest, hbefore, hafter⟩ := increasing_middle.mp hincreasing
  have hinside : ∀ a ∈ pre ++ k :: post, 0 ≤ a.frame ∧ a.frame ≤ last := hkeys ▸ h.inside
  have hk := hinside k (by simp)
  obtain ⟨hlow, hhigh⟩ := clampFrame_eq hf
  -- the new frame stays between the neighbours, as the bounds are rounded
  have hlast : ∀ a, pre.getLast? = some a → a.frame < f := by
    intro a ha
    rw [ha] at hlow
    exact (room_around hroom hkeys a ha).1.trans_le hlow
  have hpos : 0 ≤ (pre.getLast?.map fun p => fl (p.frame + 1)).getD 0 := by
    cases hp : pre.getLast? with
    | none => exact le_refl _
    | some a =>
        have ha := (hinside a (List.mem_append_left _ (List.mem_of_getLast? hp))).1
        exact ha.trans (room_around hroom hkeys a hp).1.le
  have hfirst : ∀ b, post.head? = some b → f < b.frame := by
    intro b hb
    rw [hb] at hhigh
    have hkb := hafter b (List.mem_of_head? hb)
    refine hhigh.trans_lt (max_lt ?_ ?_)
    · cases hp : pre.getLast? with
      | none => exact hk.1.trans_lt hkb
      | some a => exact (room_around hroom hkeys a hp).2.1 b hb
    · refine hroom.after b ?_
      rw [hkeys, getElem?_after, hb]
  have hend : f ≤ last := by
    cases hb : post.head? with
    | some b =>
        exact (hfirst b hb).le.trans
          (hinside b (List.mem_append_right _ (List.mem_cons_of_mem _ (List.mem_of_head? hb)))).2
    | none =>
        rw [hb] at hhigh
        refine hhigh.trans (max_le ?_ (max_le (hk.1.trans hk.2) (le_refl _)))
        cases hp : pre.getLast? with
        | none => exact hk.1.trans hk.2
        | some a => exact (room_around hroom hkeys a hp).2.2 hb
  refine ⟨by simp, hincreasing.replace hlast hfirst, ?_⟩
  intro a ha
  rcases List.mem_append.mp ha with hmem | hmem
  · exact hinside a (List.mem_append_left _ hmem)
  · rcases List.mem_cons.mp hmem with rfl | hmem
    · exact ⟨hpos.trans hlow, hend⟩
    · exact hinside a (List.mem_append_right _ (List.mem_cons_of_mem _ hmem))

end Edits

/-! ## One event -/

section Event

variable {fl : ℚ → ℚ} {s s' : Timeline} {r : Bool}

theorem add_sound (fl : ℚ → ℚ) (hs : s.WellFormed fl) (h : TimelineEvent.Sound fl s .add)
    (hrun : s.addTimelineKey fl = (s', r)) :
    s'.WellFormed fl ∧ (r = true → ChangesOneKey fl s .add s') := by
  rw [Timeline.addTimelineKey] at hrun
  split at hrun
  · cases hrun
    exact ⟨hs, fun hr => by cases hr⟩
  · rename_i t ht
    have hti := getElem?_of_selected ht
    obtain ⟨hpos, hle, hfree⟩ := h t ht
    obtain ⟨pre, post, hkeys, hsort, hincreasing⟩ :=
      (hs.selected ht).increasing.sortBy_append_singleton
        (k := ⟨s.cursor, mathRound (sampleTrackValue fl t.keys s.cursor)⟩) hfree
    cases hrun
    refine ⟨?_, ?_⟩
    · exact wellFormed_set hs ((hs.selected ht).insert hkeys hsort hincreasing ⟨hpos, hle⟩)
    · intro _
      refine ⟨_, t, _, ht, hti, ?_, rfl⟩
      show KeyEdit fl s .add t.keys (sortBy Key.frame
        (t.keys ++ [⟨s.cursor, mathRound (sampleTrackValue fl t.keys s.cursor)⟩]))
      rw [hsort]
      nth_rewrite 1 [hkeys]
      exact KeyEdit.add pre post _

theorem move_sound (hs : s.WellFormed fl) {delta : JsNumber}
    (h : TimelineEvent.Sound fl s (.move delta)) :
    ∃ s' r, s.moveTimelineKey fl delta = some (s', r) ∧ s'.WellFormed fl ∧
      (r = true → ChangesOneKey fl s (.move delta) s') := by
  rw [Timeline.moveTimelineKey]
  split
  · exact ⟨s, false, rfl, hs, fun hr => by cases hr⟩
  · rename_i t ht
    have hti := getElem?_of_selected ht
    obtain ⟨hroom, hleads⟩ := h t ht
    have hwf := hs.selected ht
    simp only [hwf.ne_nil, if_false]
    split
    · exact ⟨_, false, rfl, hs, fun hr => by cases hr⟩
    · rename_i k hk
      obtain ⟨pre, post, hkeys, hlen⟩ := eq_around hk
      have hindex : (s.clampTrack.clampKey t.keys).key_index = pre.length := hlen.symm
      have hroom' : HasRoom fl (lastFrame fl s.duracao_frames) t.keys pre.length := hlen ▸ hroom
      obtain ⟨f, hclamp, hmoved⟩ := leadsAway_iff.mp (hleads k hk)
      rw [← show pre.length = min s.key_index (t.keys.length - 1) from hlen] at hclamp
      have hf := hclamp
      rw [hkeys, minFrame_around, maxFrame_around] at hf
      have hset : t.keys.set pre.length { k with frame := f } =
          pre ++ { k with frame := f } :: post := by
        rw [hkeys, List.set_append_right _ _ (le_refl _), Nat.sub_self, List.set_cons_zero]
      have hwf' := hwf.move hkeys hroom' hf hset
      -- the keys are in order already, so that the sort leaves them
      have hsort : sortKeys (t.keys.set pre.length { k with frame := f }) =
          pre ++ { k with frame := f } :: post := by
        rw [hset]
        exact (hset ▸ hwf'.increasing : Increasing Key.frame (pre ++ _ :: post)).sortBy_eq
      rw [hindex]
      refine ⟨_, true, (congrArg _ hclamp).trans rfl, ?_, ?_⟩
      · intro t' ht'
        change t' ∈ s.trilhas.set _
          { t with keys := sortKeys (t.keys.set pre.length { k with frame := f }) } at ht'
        rw [hsort, ← hset] at ht'
        exact wellFormed_set hs hwf' t' ht'
      · intro _
        refine ⟨_, t, _, ht, hti, ?_, rfl⟩
        show KeyEdit fl s (.move delta) t.keys
          (sortKeys (t.keys.set pre.length { k with frame := f }))
        rw [hsort]
        nth_rewrite 1 [hkeys]
        exact KeyEdit.move delta pre post k f hf hmoved

theorem remove_sound (hs : s.WellFormed fl) (h : TimelineEvent.Sound fl s .remove)
    (hrun : s.removeTimelineKey = (s', r)) :
    s'.WellFormed fl ∧ (r = true → ChangesOneKey fl s .remove s') := by
  rw [Timeline.removeTimelineKey] at hrun
  split at hrun
  · cases hrun
    exact ⟨hs, fun hr => by cases hr⟩
  · rename_i t ht
    have hti := getElem?_of_selected ht
    by_cases hlen : t.keys.length ≤ 1
    · simp only [hlen, if_true] at hrun
      cases hrun
      exact ⟨hs, fun hr => by cases hr⟩
    · simp only [hlen, if_false] at hrun
      -- the index of the editor is not clamped here; the condition says that it fits
      have hi : s.key_index < t.keys.length := (h t ht).resolve_left hlen
      obtain ⟨k, hk⟩ : ∃ k, t.keys[s.key_index]? = some k := ⟨_, List.getElem?_eq_getElem hi⟩
      obtain ⟨pre, post, hkeys, hpre⟩ := eq_around hk
      have herase : t.keys.eraseIdx s.key_index = pre ++ post := by
        rw [hkeys, ← hpre, List.eraseIdx_append_of_length_le (le_refl _), Nat.sub_self,
          List.eraseIdx_zero, List.tail_cons]
      have hne : t.keys.eraseIdx s.key_index ≠ [] := by
        intro hnil
        have hcount := congrArg List.length hnil
        rw [List.length_eraseIdx_of_lt hi] at hcount
        simp at hcount
        omega
      cases hrun
      refine ⟨wellFormed_set hs ((hs.selected ht).erase hkeys herase hne), ?_⟩
      intro _
      refine ⟨_, t, _, ht, hti, ?_, rfl⟩
      show KeyEdit fl s .remove t.keys (t.keys.eraseIdx s.key_index)
      rw [herase]
      nth_rewrite 1 [hkeys]
      exact KeyEdit.remove pre post _

/-- The metadata of well-formed tracks are the names of their nodes. -/
theorem syncTrack_keys {nome : NodeNames} {t : Track} {duracao_frames : ℚ}
    (h : t.WellFormed duracao_frames) : (Timeline.syncTrack nome t).keys = t.keys :=
  h.increasing.sortBy_eq

theorem sync_wellFormed (hs : s.WellFormed fl) (nome : NodeNames) :
    (s.syncTimelineMetadata nome).WellFormed fl := by
  intro t' ht'
  obtain ⟨t, ht, rfl⟩ := List.mem_map.mp ht'
  have h := hs t ht
  have hkeys : (Timeline.syncTrack nome t).keys = t.keys := syncTrack_keys h
  refine ⟨?_, ?_, ?_⟩
  · rw [hkeys]
    exact h.ne_nil
  · rw [hkeys]
    exact h.increasing
  · rw [hkeys]
    exact h.inside

/-- Events that leave the tracks as they are. -/
theorem wellFormed_of_eq (hs : s.WellFormed fl) (htrilhas : s'.trilhas = s.trilhas)
    (hduracao : s'.duracao_frames = s.duracao_frames) : s'.WellFormed fl := by
  intro t ht
  rw [hduracao]
  exact hs t (htrilhas ▸ ht)

theorem cycle_tracks (delta : ℤ) : (s.cycleTimelineKey delta).trilhas = s.trilhas ∧
    (s.cycleTimelineKey delta).duracao_frames = s.duracao_frames := by
  rw [Timeline.cycleTimelineKey]
  split
  · exact ⟨rfl, rfl⟩
  · split <;> exact ⟨rfl, rfl⟩

theorem syncSelections_tracks : s.syncSelectionsFromCursors.trilhas = s.trilhas ∧
    s.syncSelectionsFromCursors.duracao_frames = s.duracao_frames := by
  rw [Timeline.syncSelectionsFromCursors]
  split <;> exact ⟨rfl, rfl⟩

theorem pointer_tracks (best : ℕ) : (s.handleTimelineContextPointer best).trilhas = s.trilhas ∧
    (s.handleTimelineContextPointer best).duracao_frames = s.duracao_frames := by
  rw [Timeline.handleTimelineContextPointer]
  split
  · exact ⟨rfl, rfl⟩
  · split <;> exact ⟨rfl, rfl⟩

theorem step_wellFormed (hs : s.WellFormed fl) (nome : NodeNames) :
    (s.step fl nome).WellFormed fl := by
  obtain ⟨htrilhas, hduracao⟩ := syncSelections_tracks (s := s)
  have h := sync_wellFormed (wellFormed_of_eq hs htrilhas hduracao) nome
  rw [Timeline.step]
  split
  · exact h
  · exact h

/-- A sound event happens, keeps the tracks well formed, and changes one key where it says so. -/
theorem event_sound (fl : ℚ → ℚ) (hs : s.WellFormed fl) {e : TimelineEvent} (h : e.Sound fl s) :
    ∃ s' r, timelineEvent fl s e = some (s', r) ∧ s'.WellFormed fl ∧
      (r = true → ChangesOneKey fl s e s') := by
  cases e with
  | add =>
      obtain ⟨hwf, hone⟩ := add_sound fl hs h rfl
      exact ⟨_, _, rfl, hwf, hone⟩
  | move delta => exact move_sound hs h
  | remove =>
      obtain ⟨hwf, hone⟩ := remove_sound hs h rfl
      exact ⟨_, _, rfl, hwf, hone⟩
  | cycle delta =>
      have heq := cycle_tracks (s := s) delta
      exact ⟨_, _, rfl, wellFormed_of_eq hs heq.1 heq.2, fun hr => by cases hr⟩
  | cursor delta size => exact ⟨_, _, rfl, hs, fun hr => by cases hr⟩
  | row row =>
      have heq := syncSelections_tracks (s := { s with panel_cursor := row })
      exact ⟨_, _, rfl, wellFormed_of_eq hs heq.1 heq.2, fun hr => by cases hr⟩
  | key best =>
      have heq := pointer_tracks (s := s) best
      exact ⟨_, _, rfl, wellFormed_of_eq hs heq.1 heq.2, fun hr => by cases hr⟩
  | toggle => exact ⟨_, _, rfl, hs, fun hr => by cases hr⟩
  | step nome => exact ⟨_, _, rfl, step_wellFormed hs nome, fun hr => by cases hr⟩
  | sync nome => exact ⟨_, _, rfl, sync_wellFormed hs nome, fun hr => by cases hr⟩

end Event

/-! ## Whole runs -/

section Run

variable {fl : ℚ → ℚ} {s : Timeline}

theorem allSound_cons {e : TimelineEvent} {events : List TimelineEvent} :
    AllSound fl s (e :: events) ↔ e.Sound fl s ∧
      ∀ s' r, timelineEvent fl s e = some (s', r) → AllSound fl s' events := by
  rw [AllSound, forall_split_cons]
  refine and_congr ?_ ?_
  · exact ⟨fun h => h s rfl, fun h w hw => Option.some.inj hw ▸ h⟩
  · constructor
    · intro h s' r he pre x post hsplit w hw
      refine h pre x post hsplit w ?_
      rw [timelineRun, he]
      exact hw
    · intro h pre x post hsplit w hw
      rw [timelineRun] at hw
      obtain ⟨⟨s', r⟩, he, hw⟩ := Option.bind_eq_some_iff.mp hw
      exact h s' r he pre x post hsplit w hw

/-- The state after events that are all sound. -/
theorem reached_of_sound (hs : s.WellFormed fl) {events : List TimelineEvent}
    (h : AllSound fl s events) : ∃ w, timelineRun fl s events = some w ∧ w.WellFormed fl := by
  induction events generalizing s with
  | nil => exact ⟨s, rfl, hs⟩
  | cons e events ih =>
      obtain ⟨hsound, hrest⟩ := allSound_cons.mp h
      obtain ⟨s', r, he, hs', -⟩ := event_sound fl hs hsound
      obtain ⟨w, hw, hwf⟩ := ih hs' (hrest s' r he)
      refine ⟨w, ?_, hwf⟩
      rw [timelineRun, he]
      exact hw

theorem AllSound.prefix {pre post : List TimelineEvent} (h : AllSound fl s (pre ++ post)) :
    AllSound fl s pre := (forall_split_append.mp h).1

/-- In a run whose edits are all sound the keys stay well formed, and every edit changes one key. -/
theorem timeline_keys_wellFormed (hs : s.WellFormed fl) {events : List TimelineEvent}
    (h : AllSound fl s events) : KeysStayWellFormed fl s events := by
  refine ⟨?_, ?_⟩
  · rintro pre post rfl
    exact reached_of_sound hs h.prefix
  · rintro pre e post rfl w w' hw he
    obtain ⟨w₁, hw₁, hwf⟩ := reached_of_sound hs h.prefix
    obtain rfl : w₁ = w := Option.some.inj (hw₁.symm.trans hw)
    obtain ⟨w₂, r, he₂, -, hone⟩ := event_sound fl hwf (h pre e post rfl w₁ hw)
    cases he.symm.trans he₂
    exact hone rfl

theorem defaultTimeline_wellFormed : defaultTimeline.WellFormed id := by
  intro t ht
  obtain rfl := List.mem_singleton.mp ht
  refine ⟨by decide, by decide +kernel, by decide +kernel⟩

/-- The second key of a new project is moved by five frames. -/
theorem timeline_keys_wellFormed_default :
    KeysStayWellFormed id defaultTimeline [TimelineEvent.cycle 1, TimelineEvent.move (.finite 5)] :=
      by
  refine timeline_keys_wellFormed defaultTimeline_wellFormed (allSound_cons.mpr ⟨trivial, ?_⟩)
  intro s' r he
  obtain ⟨rfl, rfl⟩ := Prod.mk.inj (Option.some.inj he)
  refine allSound_cons.mpr ⟨?_, fun _ _ _ => forall_split_nil⟩
  intro t ht
  obtain rfl : _ = t := Option.some.inj ht
  refine ⟨⟨fun prev _ hprev => ?_, fun next hnext => ?_⟩, fun k hk => ?_⟩
  · obtain rfl : _ = prev := Option.some.inj hprev
    have hnext : id ((0 : ℚ) + 1) < 119 := by decide +kernel
    exact ⟨by decide +kernel, hnext⟩
  · obtain rfl : _ = next := Option.some.inj hnext
    decide +kernel
  · obtain rfl : _ = k := Option.some.inj hk
    exact .inr (.inr (.inr (by decide +kernel)))

/-- A new project has its cursor at the first key: adding a key there gives two keys at frame 0. -/
theorem add_duplicates_key :
    ¬∀ (s : Timeline) (events : List TimelineEvent), s.WellFormed id →
      KeysStayWellFormed id s events := by
  intro h
  obtain ⟨w, hw, hwf⟩ :=
    (h defaultTimeline [TimelineEvent.add] defaultTimeline_wellFormed).reached [.add] [] rfl
  obtain rfl : (defaultTimeline.addTimelineKey id).1 = w := Option.some.inj hw
  have hnodup := nodup_of_increasing_sortBy (hwf _ List.mem_cons_self).increasing
  exact absurd hnodup (by decide +kernel)

end Run

end GatoCore.Gatod
