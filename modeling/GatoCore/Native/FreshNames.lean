import Mathlib.Data.List.Forall2
import Mathlib.Data.List.Pairwise
import GatoCore.Native.IRTypes
import GatoCore.Native.Names

/-!
# When the names of a unit are fresh

The code of each body has the labels of its control statements and refers to what it defines. Over
the whole unit this leaves three ways for names to go wrong, and each of them happens.
-/

namespace GatoCore.Native

/-! ## The code of each body -/

/-- A body of the program: its symbol and its statements. -/
structure BodySource where
  symbol : Symbol
  body : List Stmt

/-- The bodies of a program in the order of their code. -/
def Program.sources (program : Program) : List BodySource :=
  program.functions.map (fun fn => ⟨symbolOf fn.name, fn.body⟩) ++ [⟨.main, program.body⟩]

/-- What the names in the code of a body depend on. -/
structure CodeOf (table : FunctionTable) (consts : ConstTables) (source : BodySource)
    (ir : IRFunction) : Prop where
  symbol : ir.symbol = source.symbol
  labels : (labelsOf ir.instructions).Perm (controlLabels 0 (bodyControls source.body))
  resolves : ∀ inst ∈ ir.instructions, inst.Resolves table consts (labelsOf ir.instructions)
  hidden : hiddenNames 0 (bodyControls source.body) ⊆ ir.locals.map (·.name)

theorem BodyLowers.placesLabels {table : FunctionTable} {start final : LoweringContext}
    {body : List Stmt} (h : BodyLowers table start body final) :
    PlacesLabels start final (bodyControls body) := by
  cases h with
  | returns hs _ => exact hs.placesLabels
  | fallsOff hs _ hv =>
      rw [← List.append_nil (bodyControls body)]
      exact hs.placesLabels.trans (.of_chain hv.facts.chain rfl (by simp [labelsOf]))

theorem BodyLowers.hiddenNames_subset {table : FunctionTable} {start final : LoweringContext}
    {body : List Stmt} (h : BodyLowers table start body final) :
    hiddenNames start.labelCount (bodyControls body) ⊆ final.localNames := by
  cases h with
  | returns hs _ => exact hs.hiddenNames_subset
  | fallsOff hs _ hv =>
      exact List.Subset.trans hs.hiddenNames_subset (hv.facts.chain.grows.withInstr _).localNames

theorem BodyLowers.codeOf {table : FunctionTable} {consts consts' : ConstTables} {name : String}
    {returnType : Option Ty} {params : List (String × Option Ty)} {body : List Stmt}
    {final : LoweringContext}
    (h : BodyLowers table (newContext consts name returnType params) body final)
    (hconsts : final.consts.Extends consts') :
    CodeOf table consts' ⟨symbolOf name, body⟩ final.toFunction := by
  have hcount : (newContext consts name returnType params).labelCount = 0 :=
    congrArg Scope.labels (scope_newContext consts name returnType params)
  obtain ⟨hinsts, -, hsymbol, -, -⟩ := addParams_fields (emptyContext consts name returnType) params
  have hnil : (newContext consts name returnType params).instructions = [] := hinsts
  refine ⟨h.grows.symbol.trans hsymbol, ?_, h.resolved hnil hconsts, ?_⟩
  · obtain ⟨new, heq, hperm⟩ := h.placesLabels.placed
    rw [hnil] at heq
    rw [hcount] at hperm
    exact heq ▸ hperm
  · have := h.hiddenNames_subset
    rwa [hcount] at this

theorem FunctionsLower.codes {table : FunctionTable} {fns : List FunctionDecl}
    {consts consts' final : ConstTables} {lowered : List IRFunction}
    (h : FunctionsLower table consts fns lowered consts') (hfinal : consts'.Extends final) :
    List.Forall₂ (CodeOf table final)
      (fns.map fun fn => ⟨symbolOf fn.name, fn.body⟩) lowered := by
  induction h with
  | nil => exact .nil
  | cons _ hbody hrest ih =>
      exact .cons (hbody.codeOf (hrest.extends_consts.trans hfinal)) (ih hfinal)

/-- Each function of a unit is the code of one body of the program. -/
theorem ProgramLowers.codes {program : Program} {table : FunctionTable} {unit : IRUnit}
    (h : ProgramLowers program table unit) :
    List.Forall₂ (CodeOf table unit.consts) program.sources unit.functions := by
  cases h with
  | intro hfns hbody =>
      have hmain := hbody.codeOf (.refl _)
      exact List.rel_append (hfns.codes hbody.grows.consts) (.cons hmain .nil)

/-! ## Distinct labels -/

theorem Symbol.text_ne_cons_dot (s : Symbol) (cs : List Char) : s.text ≠ '.' :: cs := by
  cases s <;> simp [Symbol.text]

theorem epilogueText_ne_labelText (s t : Symbol) (l : Label) : epilogueText s ≠ l.text t := by
  intro h
  have hret : '_' ∉ ['r', 'e', 't'] := by decide
  obtain ⟨-, hdigits⟩ :=
    (append_underscore_inj (a := '.' :: s.text) hret (underscore_not_mem_decimal l.index)).mp h
  have hdigit : 'r'.isDigit = true :=
    isDigit_of_mem_decimal (n := l.index) (hdigits ▸ List.mem_cons_self)
  exact absurd hdigit (by decide)

theorem mem_functionLabels {s : Symbol} {labels : List Label} {text : List Char} :
    text ∈ functionLabels s labels ↔
      text = s.text ∨ (∃ l ∈ labels, text = l.text s) ∨ text = epilogueText s := by
  simp only [functionLabels, List.mem_cons, List.mem_append, List.mem_map, List.not_mem_nil,
    or_false, eq_comm]

theorem Symbol.text_ne_append_foreach (s : Symbol) :
    s.text ≠ s.text ++ ['_', 'f', 'o', 'r', 'e', 'a', 'c', 'h'] := by
  intro h
  simpa using congrArg List.length h

theorem functionLabels_nodup {s : Symbol} {labels : List Label} (h : labels.Nodup) :
    (functionLabels s labels).Nodup := by
  rw [functionLabels, List.nodup_cons, List.nodup_append]
  refine ⟨?_, ?_, List.nodup_singleton _, ?_⟩
  · intro hmem
    rcases List.mem_append.mp hmem with hmem | hmem
    · obtain ⟨l, -, hl⟩ := List.mem_map.mp hmem
      exact s.text_ne_cons_dot _ hl.symm
    · exact s.text_ne_cons_dot _ (List.mem_singleton.mp hmem)
  · refine h.map_on ?_
    intro l _ m _ hlm
    rcases Label.text_eq_iff.mp hlm with ⟨-, heq⟩ | ⟨-, ⟨-, -, hs⟩ | ⟨-, -, hs⟩⟩
    · exact heq
    · exact absurd hs s.text_ne_append_foreach
    · exact absurd hs s.text_ne_append_foreach
  · intro text htext e he hte
    obtain ⟨l, -, rfl⟩ := List.mem_map.mp htext
    rw [List.mem_singleton.mp he] at hte
    exact epilogueText_ne_labelText s s l hte.symm

/-- Two functions with a label of the same text: the body of an `enquanto` of the first and that of
a `para cada` of the second. -/
def BodiesClash (s : Symbol) (labels : List Label) (t : Symbol) (labels' : List Label) : Prop :=
  s.text = t.text ++ ['_', 'f', 'o', 'r', 'e', 'a', 'c', 'h'] ∧
    ∃ n, (⟨.body, n⟩ : Label) ∈ labels ∧ (⟨.foreachBody, n⟩ : Label) ∈ labels'

theorem BodiesClash.not_disjoint {s t : Symbol} {labels labels' : List Label}
    (h : BodiesClash s labels t labels') :
    ¬ (functionLabels s labels).Disjoint (functionLabels t labels') := by
  obtain ⟨hs, n, hl, hm⟩ := h
  intro hdisj
  refine hdisj (mem_functionLabels.mpr (.inr (.inl ⟨_, hl, rfl⟩)))
    (mem_functionLabels.mpr (.inr (.inl ⟨_, hm, ?_⟩)))
  exact Label.text_eq_iff.mpr (.inr ⟨rfl, .inl ⟨rfl, rfl, hs⟩⟩)

theorem disjoint_functionLabels_iff {s t : Symbol} {labels labels' : List Label} :
    (functionLabels s labels).Disjoint (functionLabels t labels') ↔
      s ≠ t ∧ ¬ BodiesClash s labels t labels' ∧ ¬ BodiesClash t labels' s labels := by
  constructor
  · intro h
    refine ⟨?_, fun hclash => hclash.not_disjoint h, fun hclash => hclash.not_disjoint fun _ ht
      hs => h hs ht⟩
    rintro rfl
    exact h (mem_functionLabels.mpr (.inl rfl)) (mem_functionLabels.mpr (.inl rfl))
  · rintro ⟨hne, hclash, hclash'⟩ text htext htext'
    rw [mem_functionLabels] at htext htext'
    -- a text is that of a symbol, of a label or of an epilogue, on both sides
    rcases htext with rfl | ⟨l, hl, rfl⟩ | rfl <;>
      rcases htext' with heq | ⟨m, hm, heq⟩ | heq
    · exact hne (Symbol.text_injective heq)
    · exact s.text_ne_cons_dot _ heq
    · exact s.text_ne_cons_dot _ heq
    · exact t.text_ne_cons_dot _ heq.symm
    · rcases Label.text_eq_iff.mp heq with ⟨heq, -⟩ | ⟨hidx, ⟨hk, hk', hs⟩ | ⟨hk, hk', hs⟩⟩
      · exact hne heq
      · refine hclash ⟨hs, l.index, ?_, ?_⟩
        · exact hk ▸ hl
        · exact hidx ▸ hk' ▸ hm
      · refine hclash' ⟨hs, l.index, ?_, ?_⟩
        · exact hidx ▸ hk' ▸ hm
        · exact hk ▸ hl
    · exact epilogueText_ne_labelText t s l heq.symm
    · exact t.text_ne_cons_dot _ heq.symm
    · exact epilogueText_ne_labelText s t m heq
    · refine hne (Symbol.text_injective ?_)
      exact List.append_cancel_right (List.cons.inj heq).2

theorem mem_controlLabels {l : Label} {n : ℕ} {cs : List ControlStmt} :
    l ∈ controlLabels n cs ↔ ∃ (k : ℕ) (c : ControlStmt), cs[k]? = some c ∧
        l ∈ c.labels (n + 3 * k) := by
  induction cs generalizing n with
  | nil => simp [controlLabels]
  | cons c cs ih =>
      rw [controlLabels, List.mem_append, ih]
      constructor
      · rintro (h | ⟨k, d, hd, hl⟩)
        · exact ⟨0, c, rfl, h⟩
        · exact ⟨k + 1, d, hd, by rwa [show n + 3 * (k + 1) = n + 3 + 3 * k by omega]⟩
      · rintro ⟨k, d, hd, hl⟩
        cases k with
        | zero =>
            cases hd
            exact .inl hl
        | succ k => exact .inr ⟨k, d, hd, by rwa [show n + 3 + 3 * k = n + 3 * (k + 1) by omega]⟩

theorem controlLabels_nodup (n : ℕ) (cs : List ControlStmt) : (controlLabels n cs).Nodup := by
  induction cs generalizing n with
  | nil => exact List.nodup_nil
  | cons c cs ih =>
      rw [controlLabels, List.nodup_append]
      refine ⟨by cases c <;> simp [ControlStmt.labels], ih _, ?_⟩
      intro l hl m hm hlm
      subst hlm
      obtain ⟨k, d, -, hm⟩ := mem_controlLabels.mp hm
      have hlow : l.index < n + 3 := by
        cases c <;> simp only [ControlStmt.labels, List.mem_cons, List.not_mem_nil,
          or_false] at hl <;>
          rcases hl with rfl | rfl | rfl <;> simp
      have hhigh : n + 3 + 3 * k ≤ l.index := by
        cases d <;> simp only [ControlStmt.labels, List.mem_cons, List.not_mem_nil,
          or_false] at hm <;>
          rcases hm with rfl | rfl | rfl <;> simp
      omega

theorem body_mem_controlLabels {i : ℕ} {cs : List ControlStmt} :
    (⟨.body, i⟩ : Label) ∈ controlLabels 0 cs ↔
      ∃ k : ℕ, cs[k]? = some .enquanto ∧ i = 3 * k + 1 := by
  rw [mem_controlLabels]
  constructor
  · rintro ⟨k, c, hc, hl⟩
    cases c <;> simp [ControlStmt.labels] at hl
    exact ⟨k, hc, hl⟩
  · rintro ⟨k, hc, rfl⟩
    exact ⟨k, _, hc, by simp [ControlStmt.labels]⟩

theorem foreachBody_mem_controlLabels {i : ℕ} {cs : List ControlStmt} :
    (⟨.foreachBody, i⟩ : Label) ∈ controlLabels 0 cs ↔
      ∃ k : ℕ, cs[k]? = some .paraCada ∧ i = 3 * k + 1 := by
  rw [mem_controlLabels]
  constructor
  · rintro ⟨k, c, hc, hl⟩
    cases c <;> simp [ControlStmt.labels] at hl
    exact ⟨k, hc, hl⟩
  · rintro ⟨k, hc, rfl⟩
    exact ⟨k, _, hc, by simp [ControlStmt.labels]⟩

/-! ### Data labels -/

theorem itemsText_ne_text (i j : ℕ) : itemsText i ≠ (DataLabel.arr j).text := by
  intro h
  have hdigits : ['I', 'T', 'E', 'M', 'S', '_'] ++ decimal i = decimal j := by
    simpa [itemsText, DataLabel.text] using h
  have hdigit : 'I'.isDigit = true :=
    isDigit_of_mem_decimal (n := j) (hdigits ▸ List.mem_cons_self)
  exact absurd hdigit (by decide)

theorem itemsText_injective {i j : ℕ} (h : itemsText i = itemsText j) : i = j :=
  decimal_injective (List.append_cancel_left h)

theorem DataLabel.text_injective {a b : DataLabel} (h : a.text = b.text) : a = b := by
  cases a <;> cases b
  · exact congrArg _ (decimal_injective (List.append_cancel_left h))
  · simp [DataLabel.text] at h
  · simp [DataLabel.text] at h
  · exact congrArg _ (decimal_injective (List.append_cancel_left h))

theorem mem_dataLabels {consts : ConstTables} {text : List Char} :
    text ∈ dataLabels consts ↔
      (∃ label type, consts.labelType label = some type ∧ text = label.text) ∨
        ∃ i < consts.arrayList.length, text = itemsText i := by
  simp only [dataLabels, List.mem_append, List.mem_map, List.mem_range, List.mem_flatMap,
    List.mem_cons, List.not_mem_nil, or_false]
  constructor
  · rintro (⟨i, hi, rfl⟩ | ⟨i, hi, rfl | rfl⟩)
    · exact .inl ⟨.str i, .str, by simp [ConstTables.labelType, hi], rfl⟩
    · exact .inr ⟨i, hi, rfl⟩
    · exact .inl ⟨.arr i, .array consts.arrayList[i].itemType, by simp [ConstTables.labelType, hi],
        rfl⟩
  · rintro (⟨label, type, hlabel, rfl⟩ | ⟨i, hi, rfl⟩)
    · cases label with
      | str i =>
          obtain ⟨s, hget, -⟩ := Option.map_eq_some_iff.mp hlabel
          exact .inl ⟨i, (List.getElem?_eq_some_iff.mp hget).1, rfl⟩
      | arr i =>
          obtain ⟨entry, hget, -⟩ := Option.map_eq_some_iff.mp hlabel
          exact .inr ⟨i, (List.getElem?_eq_some_iff.mp hget).1, .inr rfl⟩
    · exact .inr ⟨i, hi, .inl rfl⟩

theorem dataLabels_nodup (consts : ConstTables) : (dataLabels consts).Nodup := by
  rw [dataLabels, List.nodup_append]
  refine ⟨?_, ?_, ?_⟩
  · refine List.nodup_range.map_on ?_
    intro i _ j _ hij
    cases DataLabel.text_injective hij
    rfl
  · rw [List.nodup_flatMap]
    refine ⟨?_, ?_⟩
    · intro i _
      simp [itemsText_ne_text]
    · refine List.nodup_range.imp ?_
      intro i j hij text hi hj
      simp only [List.mem_cons, List.not_mem_nil, or_false] at hi hj
      rcases hi with rfl | rfl <;> rcases hj with hj | hj
      · exact hij (itemsText_injective hj)
      · exact itemsText_ne_text i j hj
      · exact itemsText_ne_text j i hj.symm
      · cases DataLabel.text_injective hj
        exact hij rfl
  · intro text htext text' htext' heq
    obtain ⟨i, -, rfl⟩ := List.mem_map.mp htext
    simp only [List.mem_flatMap, List.mem_cons, List.not_mem_nil, or_false] at htext'
    obtain ⟨j, -, rfl | rfl⟩ := htext'
    · simp [DataLabel.text, itemsText] at heq
    · cases DataLabel.text_injective heq

theorem dataLabels_disjoint (consts : ConstTables) (s : Symbol) (labels : List Label) :
    (dataLabels consts).Disjoint (functionLabels s labels) := by
  intro text hdata hfn
  have hsecond : text[1]? = some 'L' := by
    rcases mem_dataLabels.mp hdata with ⟨label, -, -, rfl⟩ | ⟨i, -, rfl⟩
    · cases label <;> rfl
    · rfl
  rcases mem_functionLabels.mp hfn with rfl | ⟨l, -, rfl⟩ | rfl <;> cases s <;>
    simp [Symbol.text, Label.text, epilogueText] at hsecond

/-! ### Functions -/

/-- An `enquanto` and a `para cada` at the same place of two functions whose names differ by
`_foreach`. -/
def LoopsClash (f g : FunctionDecl) : Prop :=
  f.name = g.name ++ "_foreach" ∧
    ∃ k : ℕ, (bodyControls f.body)[k]? = some .enquanto ∧ (bodyControls g.body)[k]? = some .paraCada

/-- The labels of two bodies are distinct. -/
def BodySource.Apart (a b : BodySource) : Prop :=
  (functionLabels a.symbol (controlLabels 0 (bodyControls a.body))).Disjoint
    (functionLabels b.symbol (controlLabels 0 (bodyControls b.body)))

section Pointwise

variable {α β : Type} {R : α → β → Prop} {as : List α} {bs : List β}

theorem exists_left_of_forall₂ (h : List.Forall₂ R as bs) : ∀ b ∈ bs, ∃ a ∈ as, R a b := by
  induction h with
  | nil => nofun
  | cons hab _ ih =>
      intro b hb
      rcases List.mem_cons.mp hb with rfl | hb
      · exact ⟨_, List.mem_cons_self, hab⟩
      · obtain ⟨a, ha, hR⟩ := ih b hb
        exact ⟨a, List.mem_cons_of_mem _ ha, hR⟩

theorem exists_right_of_forall₂ (h : List.Forall₂ R as bs) : ∀ a ∈ as, ∃ b ∈ bs, R a b :=
  exists_left_of_forall₂ h.flip

theorem pairwise_iff_of_forall₂ {P : α → α → Prop} {Q : β → β → Prop}
    (hPQ : ∀ {a a' b b'}, R a b → R a' b' → (P a a' ↔ Q b b')) (h : List.Forall₂ R as bs) :
    as.Pairwise P ↔ bs.Pairwise Q := by
  induction h with
  | nil => simp
  | @cons a b as bs hab hrest ih =>
      rw [List.pairwise_cons, List.pairwise_cons, ih]
      refine and_congr_left fun _ => ⟨?_, ?_⟩
      · intro hall b' hb'
        obtain ⟨a', ha', hR⟩ := exists_left_of_forall₂ hrest b' hb'
        exact (hPQ hab hR).mp (hall a' ha')
      · intro hall a' ha'
        obtain ⟨b', hb', hR⟩ := exists_right_of_forall₂ hrest a' ha'
        exact (hPQ hab hR).mpr (hall b' hb')

end Pointwise

theorem CodeOf.mem_functionLabels_iff {table : FunctionTable} {consts : ConstTables}
    {source : BodySource} {ir : IRFunction} (h : CodeOf table consts source ir) {text : List Char} :
    text ∈ functionLabels ir.symbol (labelsOf ir.instructions) ↔
      text ∈ functionLabels source.symbol (controlLabels 0 (bodyControls source.body)) := by
  rw [h.symbol, mem_functionLabels, mem_functionLabels]
  simp only [h.labels.mem_iff]

theorem CodeOf.functionLabels_nodup {table : FunctionTable} {consts : ConstTables}
    {source : BodySource} {ir : IRFunction} (h : CodeOf table consts source ir) :
    (functionLabels ir.symbol (labelsOf ir.instructions)).Nodup :=
  GatoCore.Native.functionLabels_nodup (h.labels.nodup_iff.mpr (controlLabels_nodup 0 _))

theorem definedLabels_nodup_iff_sources {program : Program} {table : FunctionTable} {unit : IRUnit}
    (h : ProgramLowers program table unit) :
    (definedLabels unit).Nodup ↔ program.sources.Pairwise BodySource.Apart := by
  have hcodes := h.codes
  have hfunctions : (unit.functions.flatMap fun fn =>
      functionLabels fn.symbol (labelsOf fn.instructions)).Nodup ↔
      program.sources.Pairwise BodySource.Apart := by
    rw [List.nodup_flatMap, and_iff_right]
    · refine (pairwise_iff_of_forall₂ ?_ hcodes).symm
      intro a a' b b' ha hb
      simp only [BodySource.Apart, List.Disjoint, Function.onFun, ha.mem_functionLabels_iff,
        hb.mem_functionLabels_iff]
    · intro ir hir
      obtain ⟨source, -, hcode⟩ := exists_left_of_forall₂ hcodes ir hir
      exact hcode.functionLabels_nodup
  rw [definedLabels, List.nodup_append', hfunctions]
  refine ⟨fun hall => hall.2.1, fun hapart => ⟨dataLabels_nodup _, hapart, ?_⟩⟩
  intro text hdata hfn
  obtain ⟨ir, -, hfn⟩ := List.mem_flatMap.mp hfn
  exact dataLabels_disjoint _ _ _ hdata hfn

theorem symbolOf_eq_main {name : String} : symbolOf name = .main ↔ name = mainName := by
  unfold symbolOf
  split <;> simp_all

theorem symbolOf_of_ne {name : String} (h : name ≠ mainName) : symbolOf name = .fn name :=
  if_neg h

theorem bodiesClash_fn_iff {f g : FunctionDecl} :
    BodiesClash (.fn f.name) (controlLabels 0 (bodyControls f.body)) (.fn g.name)
      (controlLabels 0 (bodyControls g.body)) ↔ LoopsClash f g := by
  unfold BodiesClash LoopsClash
  refine and_congr ?_ ?_
  · rw [← String.toList_inj, String.toList_append]
    simp [Symbol.text]
  · constructor
    · rintro ⟨n, hn, hn'⟩
      obtain ⟨k, hk, rfl⟩ := body_mem_controlLabels.mp hn
      obtain ⟨k', hk', heq⟩ := foreachBody_mem_controlLabels.mp hn'
      obtain rfl : k = k' := by omega
      exact ⟨k, hk, hk'⟩
    · rintro ⟨k, hk, hk'⟩
      exact ⟨3 * k + 1, body_mem_controlLabels.mpr ⟨k, hk, rfl⟩,
        foreachBody_mem_controlLabels.mpr ⟨k, hk', rfl⟩⟩

theorem not_bodiesClash_main_left {t : Symbol} {labels labels' : List Label} :
    ¬ BodiesClash .main labels t labels' := by
  rintro ⟨hs, -⟩
  cases t <;> simp [Symbol.text] at hs

theorem not_bodiesClash_main_right {name : String} {labels labels' : List Label} :
    ¬ BodiesClash (.fn name) labels .main labels' := by
  rintro ⟨hs, -⟩
  simp [Symbol.text] at hs

theorem not_loopsClash_self (f : FunctionDecl) : ¬ LoopsClash f f := by
  rintro ⟨hname, -⟩
  have := congrArg String.length hname
  rw [String.length_append] at this
  simp at this

/-- No label is defined twice exactly when no function is called `__main__` and no two functions
have loops that clash. -/
theorem definedLabels_nodup_iff {program : Program} {table : FunctionTable} {unit : IRUnit}
    (h : ProgramLowers program table unit) (hnames : (program.functions.map (·.name)).Nodup) :
    (definedLabels unit).Nodup ↔ (∀ fn ∈ program.functions, fn.name ≠ mainName) ∧
      ∀ f ∈ program.functions, ∀ g ∈ program.functions, ¬ LoopsClash f g := by
  rw [definedLabels_nodup_iff_sources h, Program.sources, List.pairwise_append, List.pairwise_map]
  simp only [List.pairwise_singleton, List.mem_singleton, forall_eq, List.forall_mem_map,
    true_and, BodySource.Apart, disjoint_functionLabels_iff]
  constructor
  · rintro ⟨hfns, hmain⟩
    have hne : ∀ fn ∈ program.functions, fn.name ≠ mainName :=
      fun fn hfn heq => (hmain fn hfn).1 (symbolOf_eq_main.mpr heq)
    refine ⟨hne, ?_⟩
    have hpair : program.functions.Pairwise fun f g => ¬ LoopsClash f g ∧ ¬ LoopsClash g f := by
      refine hfns.imp_of_mem ?_
      rintro f g hf hg ⟨-, hfg, hgf⟩
      rw [symbolOf_of_ne (hne f hf), symbolOf_of_ne (hne g hg), bodiesClash_fn_iff] at hfg hgf
      exact ⟨hfg, hgf⟩
    have hsymm : Std.Symm fun f g : FunctionDecl => ¬ LoopsClash f g ∧ ¬ LoopsClash g f :=
      ⟨fun _ _ hfg => hfg.symm⟩
    intro f hf g hg
    exact (hpair.forall_of_forall (fun f _ => ⟨not_loopsClash_self f, not_loopsClash_self f⟩)
      hf hg).1
  · rintro ⟨hne, hclash⟩
    refine ⟨?_, ?_⟩
    · refine (List.pairwise_map.mp hnames).imp_of_mem ?_
      intro f g hf hg hfg
      rw [symbolOf_of_ne (hne f hf), symbolOf_of_ne (hne g hg), bodiesClash_fn_iff,
        bodiesClash_fn_iff]
      exact ⟨fun heq => hfg (Symbol.fn.inj heq), hclash f hf g hg, hclash g hg f hf⟩
    · intro f hf
      rw [symbolOf_of_ne (hne f hf)]
      refine ⟨?_, not_bodiesClash_main_right, not_bodiesClash_main_left⟩
      rintro ⟨⟩

/-! ## References are defined -/

/-- The names an instruction of a body refers to are defined when the functions of the table have
code. -/
theorem Instr.references_defined {table : FunctionTable} {ir : IRFunction} {unit : IRUnit}
    (hir : ir ∈ unit.functions) {inst : Instr}
    (hinst : inst.Resolves table unit.consts (labelsOf ir.instructions))
    (htable : ∀ name entry, table.lookup name = some entry →
      (Symbol.fn name).text ∈ definedLabels unit) :
    ∀ r ∈ inst.references ir.symbol,
      r ∈ definedLabels unit ∨ ∃ fn : RuntimeFn, r = fn.text.toList := by
  have hlabel : ∀ l ∈ labelsOf ir.instructions, l.text ir.symbol ∈ definedLabels unit := by
    intro l hl
    refine List.mem_append_right _ (List.mem_flatMap.mpr ⟨ir, hir, ?_⟩)
    exact mem_functionLabels.mpr (.inr (.inl ⟨l, hl, rfl⟩))
  have hdata : ∀ label type, unit.consts.labelType label = some type →
      label.text ∈ definedLabels unit :=
    fun label type hlabel =>
      List.mem_append_left _ (mem_dataLabels.mpr (.inl ⟨label, type, hlabel, rfl⟩))
  intro r hr
  cases inst with
  | constStr _ data =>
      obtain ⟨type, hlabel⟩ := hinst
      rw [List.mem_singleton.mp hr]
      exact .inl (hdata data type hlabel)
  | constPtr _ data _ =>
      obtain ⟨type, hlabel⟩ := hinst
      rw [List.mem_singleton.mp hr]
      exact .inl (hdata data type hlabel)
  | call _ callee _ _ =>
      obtain ⟨name, entry, rfl, hlookup⟩ := hinst
      rw [List.mem_singleton.mp hr]
      exact .inl (htable name entry hlookup)
  | callRuntime _ fn _ _ =>
      rw [List.mem_singleton.mp hr]
      exact .inr ⟨fn, rfl⟩
  | print _ type =>
      rw [List.mem_singleton.mp hr]
      exact .inr ⟨.print type, rfl⟩
  | jmp target =>
      rw [List.mem_singleton.mp hr]
      exact .inl (hlabel target hinst)
  | br _ thenLabel elseLabel =>
      simp only [Instr.references, List.mem_cons, List.not_mem_nil, or_false] at hr
      rcases hr with rfl | rfl
      · exact .inl (hlabel thenLabel hinst.1)
      · exact .inl (hlabel elseLabel hinst.2)
  | ret _ _ =>
      rw [List.mem_singleton.mp hr]
      refine .inl (List.mem_append_right _ (List.mem_flatMap.mpr ⟨ir, hir, ?_⟩))
      exact mem_functionLabels.mpr (.inr (.inr rfl))
  | _ => cases hr

/-- The functions of the table have code. -/
theorem ProgramLowers.symbol_defined {program : Program} {table : FunctionTable} {unit : IRUnit}
    (h : ProgramLowers program table unit) (htable : TableFor program.functions table)
    (hmain : ∀ fn ∈ program.functions, fn.name ≠ mainName) {name : String} {entry : FnMeta}
    (hentry : table.lookup name = some entry) : (Symbol.fn name).text ∈ definedLabels unit := by
  obtain ⟨fn, hfn, hfnName, -⟩ := htable.exists_function hentry
  have hsource : (⟨symbolOf fn.name, fn.body⟩ : BodySource) ∈
      program.sources :=
    List.mem_append_left _ (List.mem_map.mpr ⟨fn, hfn, rfl⟩)
  obtain ⟨ir, hir, hcode⟩ := exists_right_of_forall₂ h.codes _ hsource
  refine List.mem_append_right _ (List.mem_flatMap.mpr ⟨ir, hir, ?_⟩)
  refine mem_functionLabels.mpr (.inl ?_)
  rw [hcode.symbol, symbolOf_of_ne (hmain fn hfn), hfnName]

/-- Every name referred to is defined. -/
theorem ProgramLowers.references_defined {program : Program} {table : FunctionTable}
    {unit : IRUnit} (h : ProgramLowers program table unit)
    (htable : TableFor program.functions table)
    (hmain : ∀ fn ∈ program.functions, fn.name ≠ mainName) :
    ∀ r ∈ references unit, r ∈ definedLabels unit ∨ ∃ fn : RuntimeFn, r = fn.text.toList := by
  intro r hr
  rcases List.mem_append.mp hr with hr | hr
  · rcases List.mem_append.mp hr with hr | hr
    · obtain ⟨i, hi, rfl⟩ := List.mem_map.mp hr
      exact .inl (List.mem_append_left _ (mem_dataLabels.mpr
        (.inr ⟨i, List.mem_range.mp hi, rfl⟩)))
    · obtain ⟨entry, hentry, hr⟩ := List.mem_flatMap.mp hr
      obtain ⟨c, hc, hr⟩ := List.mem_flatMap.mp hr
      unfold ConstValue.references at hr
      split at hr
      · cases hr
      · rename_i label hlabel
        have htyped := (h.constsTyped entry hentry c hc).2
        rw [ConstValue.Typed, hlabel] at htyped
        rw [List.mem_singleton.mp hr]
        exact .inl (List.mem_append_left _ (mem_dataLabels.mpr (.inl ⟨label, _, htyped, rfl⟩)))
  · obtain ⟨ir, hir, hr⟩ := List.mem_flatMap.mp hr
    obtain ⟨inst, hinst, hr⟩ := List.mem_flatMap.mp hr
    obtain ⟨source, -, hcode⟩ := exists_left_of_forall₂ h.codes ir hir
    exact Instr.references_defined hir (hcode.resolves inst hinst)
      (fun name entry hentry => h.symbol_defined htable hmain hentry) r hr

/-! ## Hidden locals -/

/-- The hidden locals of a body are locals of its code. -/
theorem ProgramLowers.hidden_locals {program : Program} {table : FunctionTable} {unit : IRUnit}
    (h : ProgramLowers program table unit) :
    List.Forall₂ (fun body ir => hiddenNames 0 (bodyControls body.2) ⊆ ir.locals.map (·.name))
      program.bodies unit.functions := by
  have hbodies : program.bodies.map Prod.snd = program.sources.map BodySource.body := by
    simp [Program.bodies, Program.sources, Function.comp_def]
  have hsources : List.Forall₂
      (fun stmts ir => hiddenNames 0 (bodyControls stmts) ⊆ ir.locals.map (·.name))
      (program.sources.map BodySource.body) unit.functions :=
    List.forall₂_map_left_iff.mpr (h.codes.imp fun _ _ hcode => hcode.hidden)
  rw [← hbodies] at hsources
  exact List.forall₂_map_left_iff.mp hsources

theorem keepsHidden_iff {body : List String × List Stmt} {ir : IRFunction}
    (h : hiddenNames 0 (bodyControls body.2) ⊆ ir.locals.map (·.name)) :
    KeepsHidden body ir ↔ ∀ name ∈ hiddenNames 0 (bodyControls body.2), name ∉ body.1 := by
  constructor
  · intro hkeeps name hname
    obtain ⟨loc, hloc, rfl⟩ := List.mem_map.mp (h hname)
    exact hkeeps loc hloc hname
  · exact fun hnames loc _ hname => hnames loc.name hname

/-- The locals are kept apart in the code exactly where the names of the text are. -/
theorem forall₂_keepsHidden_iff {bodies : List (List String × List Stmt)} {fns : List IRFunction}
    (h : List.Forall₂
      (fun body ir => hiddenNames 0 (bodyControls body.2) ⊆ ir.locals.map (·.name)) bodies fns) :
    List.Forall₂ KeepsHidden bodies fns ↔
      ∀ body ∈ bodies, ∀ name ∈ hiddenNames 0 (bodyControls body.2), name ∉ body.1 := by
  induction h with
  | nil => exact iff_of_true .nil nofun
  | cons hbody _ ih => rw [List.forall₂_cons, List.forall_mem_cons, keepsHidden_iff hbody, ih]

/-- The names of a compiled program are fresh exactly when no function is called `__main__`, no two
functions have loops that clash and no variable has the name of a hidden local. -/
theorem namesFresh_iff {program : Program} {table : FunctionTable} {unit : IRUnit}
    (htable : analyzeProgram program = .ok table) (h : lowerProgram program table = .ok unit) :
    NamesFresh program unit ↔
      (∀ fn ∈ program.functions, fn.name ≠ mainName) ∧
      (∀ f ∈ program.functions, ∀ g ∈ program.functions, ¬ LoopsClash f g) ∧
      ∀ body ∈ program.bodies, ∀ name ∈ hiddenNames 0 (bodyControls body.2), name ∉ body.1 := by
  have hlowers := lowerProgram_lowers h
  have htable := analyzeProgram_tableFor htable
  have hlabels := definedLabels_nodup_iff hlowers htable.nodup
  have hkeeps := forall₂_keepsHidden_iff hlowers.hidden_locals
  constructor
  · rintro ⟨hnodup, -, hhidden⟩
    obtain ⟨hmain, hclash⟩ := hlabels.mp hnodup
    exact ⟨hmain, hclash, hkeeps.mp hhidden⟩
  · rintro ⟨hmain, hclash, hhidden⟩
    exact ⟨hlabels.mpr ⟨hmain, hclash⟩, hlowers.references_defined htable hmain,
      hkeeps.mpr hhidden⟩

/-- A function `f` with a `para cada` and a function `f_foreach` with an `enquanto`. -/
def clashProgram : Program :=
  { functions := [⟨"f", [], [.forEach "x" (.array [.number 1]) []]⟩,
      ⟨"f_foreach", [], [.while (.number 0) []]⟩]
    body := [.exprStmt (.call (.identifier "f") [])] }

def clashTable : FunctionTable := [⟨"f", [], some .i64⟩, ⟨"f_foreach", [], some .i64⟩]

/-- The label `.ptjs_fn_f_foreach_body_1` is defined twice. -/
theorem clashProgram_not_fresh :
    ∃ unit, analyzeProgram clashProgram = .ok clashTable ∧
      lowerProgram clashProgram clashTable = .ok unit ∧ ¬ NamesFresh clashProgram unit := by
  obtain ⟨unit, hlower⟩ : ∃ unit, lowerProgram clashProgram clashTable = .ok unit :=
    Lib.except_eq_ok_of_isSome (by decide +kernel)
  refine ⟨unit, by decide +kernel, hlower, ?_⟩
  intro hfresh
  have hnames : (clashProgram.functions.map (·.name)).Nodup := by decide
  obtain ⟨-, hclash⟩ :=
    (definedLabels_nodup_iff (lowerProgram_lowers hlower) hnames).mp hfresh.labels
  refine hclash _ (List.mem_cons_of_mem _ List.mem_cons_self) _ List.mem_cons_self ⟨?_, 0, ?_⟩
  · decide
  · decide

/-- A function that shows the items of a list. -/
def showItemsProgram : Program :=
  { functions := [⟨"itens", [], [.forEach "x" (.array [.number 1]) [.show (.identifier "x")]]⟩]
    body := [.exprStmt (.call (.identifier "itens") [])] }

def showItemsTable : FunctionTable := [⟨"itens", [], some .i64⟩]

theorem namesFresh_iff_showItems :
    ∃ unit, lowerProgram showItemsProgram showItemsTable = .ok unit ∧
      NamesFresh showItemsProgram unit := by
  obtain ⟨unit, hlower⟩ : ∃ unit, lowerProgram showItemsProgram showItemsTable = .ok unit :=
    Lib.except_eq_ok_of_isSome (by decide +kernel)
  refine ⟨unit, hlower, (namesFresh_iff (by decide +kernel) hlower).mpr ⟨?_, ?_, ?_⟩⟩
  · decide
  · intro f hf g hg
    rw [List.mem_singleton.mp hf, List.mem_singleton.mp hg]
    exact not_loopsClash_self _
  · decide +kernel

end GatoCore.Native
