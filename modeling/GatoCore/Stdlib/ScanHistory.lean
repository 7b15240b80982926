import GatoCore.Lib.Lists
import GatoCore.Lib.Machine
import GatoCore.Lib.TwoRuns
import GatoCore.Stdlib.Scan

/-!
# Scans and their history

What a scan finds depends on the scans before it only through the index that regular expressions
with flag `g` or `y` keep.
-/

namespace GatoCore.Stdlib

open GatoCore.Lib

variable {F R : Type} [DecidableEq R] (js : ScanHost F R)

/-! ## Histories -/

/-- An engine that scans one value after the other, in their contexts. -/
def scanStep (engine : ScanEngine F R) :
    Machine (LastIndex R) (JsValue F R × JsValue F R) (Option (Varredura F R)) :=
  fun last scan =>
    let run := runState (engine.varrer_bytes js scan.1 scan.2) last
    (run.2, run.1)

/-- The state after some scans. -/
def lastAfter (engine : ScanEngine F R) (start : LastIndex R)
    (scans : List (JsValue F R × JsValue F R)) : LastIndex R :=
  ((scanStep js engine).run start scans).1

/-- What one scan gives. -/
def scanResult (engine : ScanEngine F R) (last : LastIndex R) (scan : JsValue F R × JsValue F R) :
    Option (Varredura F R) :=
  (scanStep js engine last scan).2

/-- The rule of a heuristic, when it is a regular expression that keeps its index. -/
def statefulRule (heuristic : JsValue F R) : Option R :=
  match heuristic.property "regra" with
  | .regexp r => if js.stateful r then some r else none
  | _ => none

def statefulRules (engine : ScanEngine F R) : List R :=
  engine.heuristicas.filterMap (statefulRule js)

/-- Every rule that keeps its index has it as at the start. -/
def Rewound (engine : ScanEngine F R) (start last : LastIndex R) : Prop :=
  ∀ r ∈ statefulRules js engine, last r = start r

/-- After every history, every scan gives what it gives at the start. -/
def HistoryFree (engine : ScanEngine F R) (start : LastIndex R) : Prop :=
  ∀ history scan,
    scanResult js engine (lastAfter js engine start history) scan = scanResult js engine start scan

/-! ## Two runs of a scan -/

section TwoRuns

variable {js}

/-- The indices of some regular expressions are the same. -/
def AgreeOn (P : R → Prop) (last last' : LastIndex R) : Prop := ∀ r, P r → last r = last' r

theorem AgreeOn.update {P : R → Prop} {last last' : LastIndex R} (h : AgreeOn P last last') (r : R)
    (i : ℕ) : AgreeOn P (Function.update last r i) (Function.update last' r i) := by
  intro r' hr'
  by_cases heq : r' = r
  · subst heq
    simp
  · simp [heq, h r' hr']

/-- A test reads and writes the index of a regular expression that keeps it, and no other. -/
theorem regexpTest_alike {P : R → Prop} {r : R} (hr : js.stateful r = true → P r) (text : Text) :
    Alike (AgreeOn P) Eq (regexpTest js r text) (regexpTest js r text) := by
  intro last last' hlast
  have hstart : (if js.stateful r then last r else 0) = if js.stateful r then last' r else 0 := by
    split
    · case isTrue hstateful => exact hlast r (hr hstateful)
    · rfl
  simp only [runState, regexpTest, hstart]
  split
  · refine ⟨rfl, ?_⟩
    split
    · exact hlast.update r 0
    · exact hlast
  · case h_2 stop _ =>
    refine ⟨rfl, ?_⟩
    split
    · exact hlast.update r stop
    · exact hlast

theorem heuristicMatches_alike {P : R → Prop} {heuristic : JsValue F R}
    (h : ∀ r, statefulRule js heuristic = some r → P r) (bytes : List UInt8) (text : Text)
    (context : ScanContext F R) :
    Alike (AgreeOn P) Eq (heuristicMatches js heuristic bytes text context)
      (heuristicMatches js heuristic bytes text context) := by
  unfold heuristicMatches
  split
  · exact Alike.pure rfl
  · case h_2 r hrule =>
    refine regexpTest_alike ?_ text
    intro hstateful
    exact h r (by simp [statefulRule, hrule, hstateful])
  · exact Alike.pure rfl
  · exact Alike.pure rfl
  · exact Alike.pure rfl

/-- A heuristic leaves every index alone but that of its rule. -/
theorem heuristicMatches_frame {heuristic : JsValue F R} {r : R}
    (h : statefulRule js heuristic ≠ some r) (bytes : List UInt8) (text : Text)
    (context : ScanContext F R) (last : LastIndex R) :
    (runState (heuristicMatches js heuristic bytes text context) last).2 r = last r := by
  unfold heuristicMatches
  split
  · rfl
  · case h_2 r' hrule =>
    by_cases hstateful : js.stateful r' = true
    · have hne : r ≠ r' := by
        rintro rfl
        exact h (by simp [statefulRule, hrule, hstateful])
      simp only [runState, regexpTest, hstateful, if_true]
      split
      · exact Function.update_of_ne hne _ _
      · exact Function.update_of_ne hne _ _
    · simp only [runState, regexpTest, hstateful]
      split
      · rfl
      · rfl
  · rfl
  · rfl
  · rfl

/-- A scan reads the indices of the rules and no others. -/
theorem varrer_bytes_alike (engine : ScanEngine F R) (value context : JsValue F R) :
    Alike (AgreeOn (· ∈ statefulRules js engine)) Eq (engine.varrer_bytes js value context)
      (engine.varrer_bytes js value context) := by
  unfold ScanEngine.varrer_bytes
  simp only
  split
  · exact Alike.pure rfl
  · refine Alike.bind (Alike.mapM (Q := Eq) (List.forall₂_same.mpr ?_)) ?_
    · intro heuristic hmem
      refine heuristicMatches_alike ?_ _ _ _
      intro r hr
      exact List.mem_filterMap.mpr ⟨heuristic, hmem, hr⟩
    · intro judged judged' hjudged
      rw [List.forall₂_eq_eq_eq] at hjudged
      subst hjudged
      exact Alike.pure rfl

theorem scanResult_of_rewound {engine : ScanEngine F R} {start last : LastIndex R}
    (h : Rewound js engine start last) (scan : JsValue F R × JsValue F R) :
    scanResult js engine last scan = scanResult js engine start scan :=
  (varrer_bytes_alike engine scan.1 scan.2 last start h).1

end TwoRuns

/-- A run before each of whose scans the rules are rewound gives what fresh engines give. -/
theorem scanStep_run_of_rewound {engine : ScanEngine F R} {start last : LastIndex R}
    {history : List (JsValue F R × JsValue F R)}
    (h : ∀ pre scan post, history = pre ++ scan :: post →
      Rewound js engine start (lastAfter js engine last pre)) :
    ((scanStep js engine).run last history).2 = history.map (scanResult js engine start) := by
  induction history generalizing last with
  | nil => rfl
  | cons scan history ih =>
      obtain ⟨hhead, htail⟩ := forall_split_cons.mp h
      have hscan := scanResult_of_rewound hhead scan
      simp only [Machine.run_cons, List.map_cons, ih htail]
      exact congrArg (· :: _) hscan

/-! ## Expressions that step on -/

section Stepping

/-- A signature that cannot be compared, so that every scan is a `TypeError`. -/
def Broken (engine : ScanEngine F R) : Prop :=
  ∃ sig ∈ engine.assinaturas, signatureMatches js sig [] = none

/-- The same engine, but `r` matches one character at a time and the others nothing. -/
def stepping (r : R) : ScanHost F R :=
  { js with exec := fun r' i text => if r' = r ∧ i < text.length then some (i + 1) else none }

variable {js}

omit [DecidableEq R] in
/-- Whether a signature can be compared does not depend on the bytes. -/
theorem signatureMatches_eq_none (sig : JsValue F R) (bytes bytes' : List UInt8) :
    signatureMatches js sig bytes = none ↔ signatureMatches js sig bytes' = none := by
  unfold signatureMatches
  simp only
  split <;> simp

omit [DecidableEq R] in
theorem mapM_signatureMatches_of_broken {engine : ScanEngine F R} (h : Broken js engine)
    (bytes : List UInt8) :
    (engine.assinaturas.mapM fun sig => signatureMatches js sig bytes) = none := by
  obtain ⟨sig, hmem, hsig⟩ := h
  rw [signatureMatches_eq_none sig [] bytes] at hsig
  obtain ⟨pre, post, hsplit⟩ := List.append_of_mem hmem
  rw [hsplit, List.mapM_append, List.mapM_cons, hsig]
  cases pre.mapM fun sig => signatureMatches js sig bytes <;> rfl

theorem historyFree_of_broken {engine : ScanEngine F R} (h : Broken js engine)
    (start : LastIndex R) : HistoryFree js engine start := by
  intro history scan
  simp only [scanResult, scanStep, ScanEngine.varrer_bytes, mapM_signatureMatches_of_broken h]
  rfl

/-- The rule `r` matches while there are characters left, and then starts again. -/
theorem heuristicMatches_stepping {r : R} {heuristic : JsValue F R}
    (h : statefulRule js heuristic = some r) (bytes : List UInt8) (text : Text)
    (context : ScanContext F R) (last : LastIndex R) :
    runState (heuristicMatches (stepping js r) heuristic bytes text context) last =
      (decide (last r < text.length),
        Function.update last r (if last r < text.length then last r + 1 else 0)) := by
  unfold statefulRule at h
  split at h
  · case h_1 r' hrule =>
    split at h
    · case isTrue hstateful =>
      obtain rfl := Option.some.inj h
      have hstateful' : (stepping js r').stateful r' = true := hstateful
      simp only [heuristicMatches, hrule, runState, regexpTest, hstateful', if_true]
      by_cases hlt : last r' < text.length
      · have hle : ¬ last r' > text.length := by omega
        simp [hle, hlt, stepping]
      · by_cases hgt : last r' > text.length
        · simp [hgt, hlt]
        · simp [hgt, hlt, stepping]
    · cases h
  · cases h

/-- Every other expression matches nothing. -/
theorem regexpTest_stepping_other {r r' : R} (h : r' ≠ r) (text : Text) (last : LastIndex R) :
    runState (regexpTest (stepping js r) r' text) last =
      (false, if js.stateful r' then Function.update last r' 0 else last) := by
  have hexec : ∀ i t, (stepping js r).exec r' i t = none := by
    intro i t
    simp [stepping, h]
  simp only [runState, regexpTest, hexec, ite_self]
  rfl

/-- Every other rule says the same from every state and leaves the index of `r` alone. -/
theorem heuristicMatches_stepping_other {r : R} {heuristic : JsValue F R}
    (hr : js.stateful r = true) (h : statefulRule js heuristic ≠ some r) (bytes : List UInt8)
    (text : Text) (context : ScanContext F R) :
    ∃ verdict, ∀ last, ∃ next : LastIndex R, next r = last r ∧
      runState (heuristicMatches (stepping js r) heuristic bytes text context) last =
        (verdict, next) := by
  unfold heuristicMatches
  split
  · exact ⟨_, fun last => ⟨last, rfl, rfl⟩⟩
  · case h_2 r' hrule =>
    have hne : r' ≠ r := by
      rintro rfl
      exact h (by simp [statefulRule, hrule, hr])
    refine ⟨false, fun last => ⟨_, ?_, regexpTest_stepping_other hne text last⟩⟩
    split
    · exact Function.update_of_ne (Ne.symm hne) _ _
    · rfl
  · exact ⟨_, fun last => ⟨last, rfl, rfl⟩⟩
  · exact ⟨_, fun last => ⟨last, rfl, rfl⟩⟩
  · exact ⟨_, fun last => ⟨last, rfl, rfl⟩⟩

/-- The number of verdicts that are `true`, and the index of `r` afterwards. -/
def tally (js : ScanHost F R) (r : R) (heuristics : List (JsValue F R)) (bytes : List UInt8)
    (context : ScanContext F R) (last : LastIndex R) : ℕ × ℕ :=
  let run := runState (heuristics.mapM fun h =>
    heuristicMatches (stepping js r) h bytes (latin1 bytes) context) last
  (run.1.count true, run.2 r)

/-- How often `r` is a rule. -/
def uses (js : ScanHost F R) (r : R) (heuristics : List (JsValue F R)) : ℕ :=
  heuristics.countP fun h => statefulRule js h = some r

/-- From an index from which it matches at every use, `r` says `true` each time; from the end of the
text it says `false` once. The other rules say the same in both runs. -/
theorem tally_stepping {r : R} (hr : js.stateful r = true) (heuristics : List (JsValue F R))
    (bytes : List UInt8) (context : ScanContext F R) :
    ∃ others, (∀ last : LastIndex R, last r + uses js r heuristics ≤ (latin1 bytes).length →
        (tally js r heuristics bytes context last).1 = others + uses js r heuristics ∧
          (tally js r heuristics bytes context last).2 = last r + uses js r heuristics) ∧
      ∀ last : LastIndex R, last r = (latin1 bytes).length → 0 < uses js r heuristics →
        uses js r heuristics ≤ (latin1 bytes).length →
        (tally js r heuristics bytes context last).1 + 1 = others + uses js r heuristics := by
  induction heuristics with
  | nil =>
      refine ⟨0, ?_, ?_⟩
      · intro last _
        exact ⟨rfl, rfl⟩
      · intro last _ hpos
        simp [uses] at hpos
  | cons h heuristics ih =>
      obtain ⟨others, hall, hend⟩ := ih
      -- only the rules of this object move its lastIndex
      by_cases hrule : statefulRule js h = some r
      · have huses : uses js r (h :: heuristics) = uses js r heuristics + 1 := by
          simp [uses, hrule]
        have hstep : ∀ last : LastIndex R, tally js r (h :: heuristics) bytes context last =
            ((tally js r heuristics bytes context (Function.update last r
                (if last r < (latin1 bytes).length then last r + 1 else 0))).1 +
              (if last r < (latin1 bytes).length then 1 else 0),
            (tally js r heuristics bytes context (Function.update last r
                (if last r < (latin1 bytes).length then last r + 1 else 0))).2) := by
          intro last
          simp only [tally, runState_mapM_cons, heuristicMatches_stepping hrule, List.count_cons]
          simp
        refine ⟨others, ?_, ?_⟩
        · intro last hlen
          rw [huses] at hlen
          have hlt : last r < (latin1 bytes).length := by omega
          rw [hstep last, huses]
          simp only [hlt, if_true]
          have hrest := hall (Function.update last r (last r + 1)) (by simp; omega)
          simp only [Function.update_self] at hrest
          omega
        · intro last hlast _ hle
          rw [huses] at hle
          have hlt : ¬ last r < (latin1 bytes).length := by omega
          rw [hstep last, huses]
          simp only [hlt, if_false]
          have hrest := hall (Function.update last r 0) (by simp; omega)
          omega
      · have huses : uses js r (h :: heuristics) = uses js r heuristics := by
          simp [uses, hrule]
        obtain ⟨verdict, hverdict⟩ :=
          heuristicMatches_stepping_other hr hrule bytes (latin1 bytes) context
        have hstep : ∀ last : LastIndex R, ∃ next : LastIndex R, next r = last r ∧
            tally js r (h :: heuristics) bytes context last =
              ((tally js r heuristics bytes context next).1 + (if verdict then 1 else 0),
                (tally js r heuristics bytes context next).2) := by
          intro last
          obtain ⟨next, hnext, hrun⟩ := hverdict last
          refine ⟨next, hnext, ?_⟩
          simp only [tally, runState_mapM_cons, hrun, List.count_cons]
          simp
        refine ⟨others + (if verdict then 1 else 0), ?_, ?_⟩
        · intro last hlen
          obtain ⟨next, hnext, htally⟩ := hstep last
          rw [huses] at hlen ⊢
          have hrest := hall next (by omega)
          rw [htally]
          simp only
          omega
        · intro last hlast hpos hle
          obtain ⟨next, hnext, htally⟩ := hstep last
          rw [huses] at hpos hle ⊢
          have hrest := hend next (by omega) hpos hle
          rw [htally]
          simp only
          omega

omit [DecidableEq R] in
theorem matchesOf_length (tipo : String) {items : List (JsValue F R)} {verdicts : List Bool}
    (h : verdicts.length = items.length) :
    (matchesOf tipo items verdicts).length = verdicts.count true := by
  induction verdicts generalizing items with
  | nil => simp [matchesOf]
  | cons verdict verdicts ih =>
      cases items with
      | nil => simp at h
      | cons item items =>
          have hrest := @ih items (by simpa using h)
          cases verdict <;> simp_all [matchesOf]

omit [DecidableEq R] in
theorem exists_found_of_not_broken {engine : ScanEngine F R} (h : ¬ Broken js engine)
    (bytes : List UInt8) :
    ∃ found, (engine.assinaturas.mapM fun sig => signatureMatches js sig bytes) = some found := by
  have hsome : ∀ sig ∈ engine.assinaturas, ∃ verdict, signatureMatches js sig bytes =
      some verdict := by
    intro sig hmem
    rw [← Option.ne_none_iff_exists', ne_eq, signatureMatches_eq_none sig bytes []]
    exact fun hnone => h ⟨sig, hmem, hnone⟩
  generalize engine.assinaturas = sigs at hsome
  induction sigs with
  | nil => exact ⟨[], rfl⟩
  | cons sig sigs ih =>
      obtain ⟨verdict, hverdict⟩ := hsome sig List.mem_cons_self
      obtain ⟨found, hfound⟩ := ih fun sig' hmem => hsome sig' (List.mem_cons_of_mem _ hmem)
      exact ⟨verdict :: found, by rw [List.mapM_cons, hverdict, hfound]; rfl⟩

/-- The verdicts of the heuristics in a scan of `bytes`, and the state they leave. -/
def judge (js : ScanHost F R) (engine : ScanEngine F R) (bytes : List UInt8) (context : JsValue F R)
    (last : LastIndex R) : List Bool × LastIndex R :=
  runState (engine.heuristicas.mapM fun heuristic =>
    heuristicMatches js heuristic bytes (latin1 bytes) (scanContext js bytes context)) last

theorem judge_length (engine : ScanEngine F R) (bytes : List UInt8) (context : JsValue F R)
    (last : LastIndex R) :
    (judge js engine bytes context last).1.length = engine.heuristicas.length :=
  length_runState_mapM _ _ _

/-- A scan whose signatures can be compared: its matches are those of the signatures, which do not
depend on the state, and those of the heuristics. -/
theorem varrer_bytes_of_found {engine : ScanEngine F R} {value : JsValue F R} {found : List Bool}
    (h : (engine.assinaturas.mapM fun sig => signatureMatches js sig (toBytes js.conv value)) =
      some found) (context : JsValue F R) (last : LastIndex R) :
    runState (engine.varrer_bytes js value context) last =
      (some (report (toBytes js.conv value) (scanContext js (toBytes js.conv value) context)
          (matchesOf "assinatura" engine.assinaturas found ++ matchesOf "heuristica"
            engine.heuristicas (judge js engine (toBytes js.conv value) context last).1)),
        (judge js engine (toBytes js.conv value) context last).2) := by
  unfold ScanEngine.varrer_bytes
  simp only [h]
  rfl

/-- When `r` is a rule, stepping through a text as long as its uses shows up in the next scan of the
same bytes. -/
theorem not_historyFree_stepping {engine : ScanEngine F R} {r : R}
    (hr : r ∈ statefulRules js engine) (hbroken : ¬ Broken js engine) :
    ¬ HistoryFree (stepping js r) engine (fun _ => 0) := by
  obtain ⟨heuristic, hmem, hrule⟩ := List.mem_filterMap.mp hr
  have hstateful : js.stateful r = true := by
    unfold statefulRule at hrule
    split at hrule
    · split at hrule
      · cases hrule
        assumption
      · cases hrule
    · cases hrule
  have hpos : 0 < uses js r engine.heuristicas :=
    List.countP_pos_iff.mpr ⟨heuristic, hmem, by simpa using hrule⟩
  let bytes : List UInt8 := List.replicate (uses js r engine.heuristicas) 0
  have hlen : (latin1 bytes).length = uses js r engine.heuristicas := by simp [bytes, latin1]
  let ctx := scanContext (stepping js r) bytes .undefined
  obtain ⟨others, hall, hend⟩ := tally_stepping hstateful engine.heuristicas bytes ctx
  obtain ⟨found, hfound⟩ := exists_found_of_not_broken hbroken bytes
  have hscan := @varrer_bytes_of_found _ _ _ (stepping js r) engine (.bytes bytes) found hfound
    .undefined
  let first := judge (stepping js r) engine bytes .undefined fun _ => 0
  let second := judge (stepping js r) engine bytes .undefined first.2
  have hfirst := hall (fun _ => 0) (by omega)
  have hsecond := hend first.2 (by rw [hlen]; exact hfirst.2.trans (Nat.zero_add _)) hpos hlen.ge
  intro hfree
  have hsame : matchesOf "heuristica" engine.heuristicas second.1 =
      matchesOf "heuristica" engine.heuristicas first.1 := by
    have hresult := hfree [(.bytes bytes, .undefined)] (.bytes bytes, .undefined)
    simp only [scanResult, scanStep, lastAfter, Machine.run_cons, Machine.run_nil, hscan] at hresult
    have hmatches := congrArg Varredura.correspondencias (Option.some.inj hresult)
    exact List.append_cancel_left hmatches
  have hcount : second.1.count true = first.1.count true := by
    have hlength := congrArg List.length hsame
    rwa [matchesOf_length _ (judge_length _ _ _ _), matchesOf_length _ (judge_length _ _ _ _)]
      at hlength
  have htally : second.1.count true + 1 = others + uses js r engine.heuristicas := hsecond
  have htally' : first.1.count true = others + uses js r engine.heuristicas := hfirst.1
  omega

end Stepping

/-! ## The result -/

theorem historyFree_of_stateless {engine : ScanEngine F R} (h : statefulRules js engine = [])
    (start : LastIndex R) : HistoryFree js engine start := by
  intro history scan
  refine scanResult_of_rewound ?_ scan
  intro r hr
  rw [h] at hr
  cases hr

/-- In every run, a scan gives what a fresh engine gives as long as the regular expressions with
flag `g` or `y` have their index as at the start; and whatever the regular expressions match, every
scan after every history gives what a fresh engine gives, exactly when no rule is one with flag `g`
or `y`, or some signature is a `TypeError` in every scan. -/
theorem scans_history_free_iff (engine : ScanEngine F R) :
    (∀ start history, (∀ pre scan post, history = pre ++ scan :: post →
        Rewound js engine start (lastAfter js engine start pre)) →
      ((scanStep js engine).run start history).2 = history.map (scanResult js engine start)) ∧
    ((∀ exec start, HistoryFree { js with exec } engine start) ↔
      statefulRules js engine = [] ∨ Broken js engine) := by
  refine ⟨fun start history h => scanStep_run_of_rewound js h, ?_⟩
  constructor
  · intro hfree
    by_contra hneither
    obtain ⟨hstateful, hbroken⟩ := not_or.mp hneither
    obtain ⟨r, hr⟩ := List.exists_mem_of_ne_nil _ hstateful
    exact not_historyFree_stepping hr hbroken (hfree _ _)
  · rintro (hstateless | hbroken) exec start
    · exact historyFree_of_stateless { js with exec } hstateless start
    · exact @historyFree_of_broken _ _ _ { js with exec } engine hbroken start

/-- `/a/g`. -/
def globalA : ScanHost Unit Unit where
  conv := noConversions
  sameObject _ _ := false
  toLowerCase := id
  stateful _ := true
  exec _ start text := ((text.drop start).idxOf? 'a').map (start + · + 1)
  call _ _ _ _ := .undefined
  dirs := ⟨none, []⟩
  loadSource _ := .erro "" [] []

/-- `motor_varredura({heuristicas: [{nome: "a", regra: /a/g}]})`. -/
def globalEngine : ScanEngine Unit Unit :=
  createScanEngine globalA (.object true
    [("heuristicas", .array [.object true [("nome", .text ['a']), ("regra", .regexp ())]])])

/-- The second scan of the same byte is clean. -/
theorem globalEngine_not_historyFree : ¬ HistoryFree globalA globalEngine fun _ => 0 := by
  intro h
  have hsame := congrArg (Option.map Varredura.veredicto)
    (h [(.bytes [97], .undefined)] (.bytes [97], .undefined))
  revert hsame
  decide

end GatoCore.Stdlib
