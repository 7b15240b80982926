import GatoCore.Lib.Json

/-!
# JSON as text

`JSON.stringify` with an indent of any width, `JSON.parse`, and that the second reads back what the
first wrote. How numbers are written is a parameter.
-/

namespace GatoCore.Lib

namespace Json

variable {N : Type}

/-! ## Writing -/

def quoteChar (c : Char) : List Char :=
  if c = '\t' then ['\\', 't']
  else if c = '\r' then ['\\', 'r']
  else if c = '\n' then ['\\', 'n']
  else if c = '\x08' then ['\\', 'b']
  else if c = '\x0c' then ['\\', 'f']
  else if c = '"' ∨ c = '\\' then ['\\', c]
  else if c.toNat < 32 then
    ['\\', 'u', '0', '0', Nat.digitChar (c.toNat / 16), Nat.digitChar (c.toNat % 16)]
  else [c]

def quote (t : List Char) : List Char := '"' :: (t.flatMap quoteChar ++ ['"'])

/-- What stands before an item: nothing without an indent. -/
def newline (gap depth : ℕ) : List Char :=
  if gap = 0 then [] else '\n' :: List.replicate (gap * depth) ' '

/-- The items after the first one. -/
def tailText (gap depth : ℕ) (parts : List (List Char)) : List Char :=
  parts.flatMap fun part => ',' :: (newline gap depth ++ part)

def enclose (gap depth : ℕ) (left right : Char) : List (List Char) → List Char
  | [] => [left, right]
  | part :: parts =>
      left :: (newline gap (depth + 1) ++ part ++ tailText gap (depth + 1) parts ++
        newline gap depth ++ [right])

def fieldText (gap : ℕ) (key value : List Char) : List Char :=
  quote key ++ ':' :: ((if gap = 0 then [] else [' ']) ++ value)

variable [NumberText N]

mutual
def print (gap depth : ℕ) : Json N → List Char
  | null => ['n', 'u', 'l', 'l']
  | bool true => ['t', 'r', 'u', 'e']
  | bool false => ['f', 'a', 'l', 's', 'e']
  | number n => if NumberText.finite n then NumberText.print n else ['n', 'u', 'l', 'l']
  | text t => quote t
  | array items => enclose gap depth '[' ']' (printItems gap (depth + 1) items)
  | object ⟨indices, names⟩ =>
      enclose gap depth '{' '}'
        (printIndices gap (depth + 1) indices ++ printNames gap (depth + 1) names)
def printItems (gap depth : ℕ) : List (Json N) → List (List Char)
  | [] => []
  | v :: vs => print gap depth v :: printItems gap depth vs
def printIndices (gap depth : ℕ) : List (ℕ × Json N) → List (List Char)
  | [] => []
  | (n, v) :: es => fieldText gap (indexText n) (print gap depth v) :: printIndices gap depth es
def printNames (gap depth : ℕ) : List (List Char × Json N) → List (List Char)
  | [] => []
  | (key, v) :: es => fieldText gap key (print gap depth v) :: printNames gap depth es
end

attribute [local grind =] print printItems printIndices printNames

/-- `JSON.stringify(v, null, gap)`. -/
def stringify (gap : ℕ) (v : Json N) : List Char := print gap 0 v

/-! ## Reading -/

def isSpace (c : Char) : Bool := c ∈ [' ', '\t', '\n', '\r']

def skipSpace (cs : List Char) : List Char := cs.dropWhile isSpace

def hexValue (c : Char) : Option ℕ :=
  if c.isDigit then some (c.toNat - '0'.toNat)
  else if 'a' ≤ c ∧ c ≤ 'f' then some (c.toNat - 'a'.toNat + 10)
  else if 'A' ≤ c ∧ c ≤ 'F' then some (c.toNat - 'A'.toNat + 10)
  else none

/-- The character of four digits. Halves of characters have none here. -/
def hexChar (a b c d : Char) : Option Char := do
  let n := (((← hexValue a) * 16 + (← hexValue b)) * 16 + (← hexValue c)) * 16 + (← hexValue d)
  if n.isValidChar then some (Char.ofNat n) else none

def unescape (c : Char) : Option Char :=
  if c = 'b' then some '\x08'
  else if c = 'f' then some '\x0c'
  else if c = 'n' then some '\n'
  else if c = 'r' then some '\r'
  else if c = 't' then some '\t'
  else if c = '\\' ∨ c = '/' ∨ c = '"' then some c
  else none

/-- `c` before what was read. -/
def push (c : Char) (r : List Char × List Char) : List Char × List Char := (c :: r.1, r.2)

/-- A text up to its closing quote, and what comes after it. -/
def parseText : List Char → Option (List Char × List Char)
  | [] => none
  | c :: cs =>
      if c = '"' then some ([], cs)
      else if c.toNat < 32 then none
      else if c = '\\' then
        match cs with
        | 'u' :: a :: b :: c :: d :: cs =>
            (hexChar a b c d).bind fun c => (parseText cs).map (push c)
        | e :: cs => (unescape e).bind fun c => (parseText cs).map (push c)
        | [] => none
      else (parseText cs).map (push c)

def parseScalar (cs : List Char) : Option (Json N × List Char) :=
  if ['n', 'u', 'l', 'l'].isPrefixOf cs then some (null, cs.drop 4)
  else if ['t', 'r', 'u', 'e'].isPrefixOf cs then some (bool true, cs.drop 4)
  else if ['f', 'a', 'l', 's', 'e'].isPrefixOf cs then some (bool false, cs.drop 5)
  else (NumberText.read (cs.takeWhile isNumberChar)).map fun n =>
    (number n, cs.dropWhile isNumberChar)

mutual
def parseValue : ℕ → List Char → Option (Json N × List Char)
  | 0, _ => none
  | fuel + 1, cs =>
      match skipSpace cs with
      | [] => none
      | c :: rest =>
          if c = '{' then
            if (skipSpace rest).head? = some '}' then
              some (object JsObject.empty, (skipSpace rest).tail)
            else parseFields fuel JsObject.empty rest
          else if c = '[' then
            if (skipSpace rest).head? = some ']' then some (array [], (skipSpace rest).tail)
            else (parseItems fuel rest).map fun r => (array r.1, r.2)
          else if c = '"' then (parseText rest).map fun r => (text r.1, r.2)
          else parseScalar (c :: rest)
def parseItems : ℕ → List Char → Option (List (Json N) × List Char)
  | 0, _ => none
  | fuel + 1, cs =>
      (parseValue fuel cs).bind fun r =>
        match skipSpace r.2 with
        | ',' :: rest => (parseItems fuel rest).map fun s => (r.1 :: s.1, s.2)
        | ']' :: rest => some ([r.1], rest)
        | _ => none
def parseFields : ℕ → JsObject (Json N) → List Char → Option (Json N × List Char)
  | 0, _, _ => none
  | fuel + 1, o, cs =>
      match skipSpace cs with
      | '"' :: rest =>
          (parseText rest).bind fun key =>
            match skipSpace key.2 with
            | ':' :: rest =>
                (parseValue fuel rest).bind fun r =>
                  match skipSpace r.2 with
                  | ',' :: rest => parseFields fuel (o.set key.1 r.1) rest
                  | '}' :: rest => some (object (o.set key.1 r.1), rest)
                  | _ => none
            | _ => none
      | _ => none
end

attribute [local grind =] parseValue parseItems parseFields

/-- `JSON.parse(text)`, `none` where it throws. A bracket costs two steps and an item one, so there
are never more of them than that. -/
def parse (cs : List Char) : Option (Json N) :=
  match parseValue (2 * cs.length) cs with
  | some (v, rest) => if skipSpace rest = [] then some v else none
  | none => none

/-! ## Texts read back -/

theorem hexChar_digitChar : ∀ n < 32,
    hexChar '0' '0' (Nat.digitChar (n / 16)) (Nat.digitChar (n % 16)) = some (Char.ofNat n) := by
  decide

theorem parseText_quoteChar (c : Char) (cs : List Char) :
    parseText (quoteChar c ++ cs) = (parseText cs).map (push c) := by
  unfold quoteChar
  split_ifs with h1 h2 h3 h4 h5 h6 h7
  · rw [h1]; rfl
  · rw [h2]; rfl
  · rw [h3]; rfl
  · rw [h4]; rfl
  · rw [h5]; rfl
  · rcases h6 with h | h <;> rw [h] <;> rfl
  · have hchar := hexChar_digitChar c.toNat h7
    rw [Char.ofNat_toNat] at hchar
    simp [parseText, hchar]
  · rw [not_or] at h6
    rw [List.singleton_append, parseText.eq_def]
    simp [h6.1, h6.2, h7]

theorem parseText_flatMap (t rest : List Char) :
    parseText (t.flatMap quoteChar ++ '"' :: rest) = some (t, rest) := by
  induction t with
  | nil =>
      rw [List.flatMap_nil, List.nil_append, parseText.eq_def]
      rfl
  | cons c t ih =>
      rw [List.flatMap_cons, List.append_assoc, parseText_quoteChar, ih]
      rfl

/-! ## Spaces -/

theorem skipSpace_cons {c : Char} (cs : List Char) (h : isSpace c = false) :
    skipSpace (c :: cs) = c :: cs := by
  rw [skipSpace, List.dropWhile_cons_of_neg (by simp [h])]

theorem skipSpace_replicate (n : ℕ) (cs : List Char) :
    skipSpace (List.replicate n ' ' ++ cs) = skipSpace cs := by
  induction n with
  | zero => rfl
  | succ n ih => exact ih

theorem skipSpace_newline (gap depth : ℕ) (cs : List Char) :
    skipSpace (newline gap depth ++ cs) = skipSpace cs := by
  unfold newline
  split_ifs
  · rfl
  · exact skipSpace_replicate _ cs

theorem parseValue_skip {cs cs' : List Char} (h : skipSpace cs = skipSpace cs') (fuel : ℕ) :
    (parseValue fuel cs : Option (Json N × List Char)) = parseValue fuel cs' := by
  cases fuel with
  | zero => rfl
  | succ fuel => rw [parseValue, parseValue, h]

/-! ## Values read back -/

/-- No number goes on into `rest`. -/
def Stops (rest : List Char) : Prop := ∀ c ∈ rest.head?, isNumberChar c = false

/-- With fuel enough, what is written of `v` is read as `v`. -/
def ReadsBack (gap depth : ℕ) (v : Json N) : Prop :=
  ∀ fuel rest, 2 * (print gap depth v).length ≤ fuel → Stops rest →
    parseValue fuel (print gap depth v ++ rest) = some (v, rest)

theorem stops_cons {c : Char} (rest : List Char) (h : isNumberChar c = false) :
    Stops (c :: rest) := by
  intro c' hc'
  cases hc'
  exact h

theorem stops_newline (gap depth : ℕ) {rest : List Char} (h : Stops rest) :
    Stops (newline gap depth ++ rest) := by
  unfold newline
  split_ifs
  · exact h
  · exact stops_cons _ (by decide)

/-! ## What is printed of each kind of value -/

theorem ne_of_isNumberChar {c c' : Char} (h : isNumberChar c = true)
    (h' : isNumberChar c' = false) : c ≠ c' := by
  rintro rfl
  rw [h] at h'
  cases h'

theorem isSpace_of_isNumberChar {c : Char} (h : isNumberChar c = true) : isSpace c = false := by
  have hne : ∀ c', isNumberChar c' = false → c ≠ c' := fun _ h' => ne_of_isNumberChar h h'
  simp [isSpace, hne ' ' (by decide), hne '\t' (by decide), hne '\n' (by decide),
    hne '\r' (by decide)]

theorem enclose_eq_cons (gap depth : ℕ) (left right : Char) (parts : List (List Char)) :
    ∃ cs, enclose gap depth left right parts = left :: cs := by
  cases parts <;> exact ⟨_, rfl⟩

/-- A value begins with no space and no closing bracket. -/
theorem exists_print_eq_cons (gap depth : ℕ) (v : Json N) :
    ∃ c cs, print gap depth v = c :: cs ∧ isSpace c = false ∧ c ≠ ']' := by
  cases v with
  | null => exact ⟨_, _, rfl, by decide⟩
  | bool b => cases b <;> exact ⟨_, _, rfl, by decide⟩
  | number n =>
      rw [print]
      split_ifs with hn
      · obtain ⟨c, cs, hprint⟩ := List.exists_cons_of_ne_nil (NumberText.print_ne_nil n hn)
        have hc : isNumberChar c = true :=
          NumberText.isNumberChar_of_mem n hn c (hprint ▸ List.mem_cons_self)
        exact ⟨c, cs, hprint, isSpace_of_isNumberChar hc, ne_of_isNumberChar hc (by decide)⟩
      · exact ⟨_, _, rfl, by decide⟩
  | text t => exact ⟨_, _, rfl, by decide⟩
  | array items =>
      obtain ⟨cs, hcs⟩ := enclose_eq_cons gap depth '[' ']' (printItems gap (depth + 1) items)
      exact ⟨'[', cs, by rw [print, hcs], by decide⟩
  | object o =>
      obtain ⟨cs, hcs⟩ := enclose_eq_cons gap depth '{' '}'
        (printIndices gap (depth + 1) o.indices ++ printNames gap (depth + 1) o.names)
      exact ⟨'{', cs, by rw [← hcs, print], by decide⟩

theorem printItems_eq_map (gap depth : ℕ) (items : List (Json N)) :
    printItems gap depth items = items.map (print gap depth) := by
  induction items with
  | nil => rfl
  | cons v vs ih => rw [printItems, ih, List.map_cons]

/-- The text of a key and its value. -/
def entryText (gap depth : ℕ) (e : List Char × Json N) : List Char :=
  fieldText gap e.1 (print gap depth e.2)

theorem printIndices_eq_map (gap depth : ℕ) (es : List (ℕ × Json N)) :
    printIndices gap depth es =
      (es.map fun e => (indexText e.1, e.2)).map (entryText gap depth) := by
  induction es with
  | nil => rfl
  | cons e es ih => rw [printIndices, ih, List.map_cons, List.map_cons, entryText]

theorem printNames_eq_map (gap depth : ℕ) (es : List (List Char × Json N)) :
    printNames gap depth es = es.map (entryText gap depth) := by
  induction es with
  | nil => rfl
  | cons e es ih => rw [printNames, ih, List.map_cons, entryText]

theorem print_array (gap depth : ℕ) (items : List (Json N)) :
    print gap depth (array items) =
      enclose gap depth '[' ']' (items.map (print gap (depth + 1))) := by
  rw [print, printItems_eq_map]

theorem print_object (gap depth : ℕ) (o : JsObject (Json N)) :
    print gap depth (object o) =
      enclose gap depth '{' '}' (o.entries.map (entryText gap (depth + 1))) := by
  rw [JsObject.entries, List.map_append, print, printIndices_eq_map, printNames_eq_map]

/-! ## Values read back, kind by kind -/

theorem readsBack_number (gap depth : ℕ) {n : N} (hn : NumberText.finite n) :
    ReadsBack gap depth (number n) := by
  intro fuel rest hfuel hrest
  have hmem := NumberText.isNumberChar_of_mem n hn
  have htake : (NumberText.print n ++ rest).takeWhile isNumberChar = NumberText.print n := by
    rw [List.takeWhile_append_of_pos hmem]
    cases rest with
    | nil => rw [List.takeWhile_nil, List.append_nil]
    | cons c cs => rw [List.takeWhile_cons_of_neg (by simp [hrest c rfl]), List.append_nil]
  have hdrop : (NumberText.print n ++ rest).dropWhile isNumberChar = rest := by
    rw [List.dropWhile_append_of_pos hmem]
    cases rest with
    | nil => rfl
    | cons c cs => rw [List.dropWhile_cons_of_neg (by simp [hrest c rfl])]
  have hread := NumberText.read_print n hn
  rw [print, if_pos hn] at hfuel ⊢
  obtain ⟨c, cs, hprint⟩ := List.exists_cons_of_ne_nil (NumberText.print_ne_nil n hn)
  have hc : isNumberChar c = true := hmem c (hprint ▸ List.mem_cons_self)
  rw [hprint, List.cons_append] at htake hdrop
  rw [hprint] at hfuel hread
  rw [hprint, List.cons_append]
  obtain ⟨fuel, rfl⟩ := Nat.exists_eq_add_of_lt (show 0 < fuel by simp at hfuel; omega)
  have hne : ∀ c', isNumberChar c' = false → c ≠ c' := fun _ h' => ne_of_isNumberChar hc h'
  rw [Nat.zero_add, parseValue, skipSpace_cons _ (isSpace_of_isNumberChar hc)]
  simp only [hne '{' (by decide), hne '[' (by decide), hne '"' (by decide), if_false, parseScalar,
    List.isPrefixOf_cons_cons, beq_eq_false_iff_ne.mpr (hne 'n' (by decide)).symm,
    beq_eq_false_iff_ne.mpr (hne 't' (by decide)).symm,
    beq_eq_false_iff_ne.mpr (hne 'f' (by decide)).symm, Bool.false_and, Bool.false_eq_true,
    htake, hdrop, hread, Option.map_some]

theorem readsBack_text (gap depth : ℕ) (t : List Char) :
    ReadsBack gap depth (text t : Json N) := by
  intro fuel rest hfuel _
  obtain ⟨fuel, rfl⟩ :=
    Nat.exists_eq_add_of_lt (show 0 < fuel by simp [print, quote] at hfuel; omega)
  rw [print, quote, List.cons_append, List.append_assoc, List.singleton_append, Nat.zero_add,
    parseValue, skipSpace_cons _ (by decide)]
  simp only [parseText_flatMap]
  rfl

/-- What comes after an item, up to the closing bracket. -/
def closing (gap depth : ℕ) (parts : List (List Char)) (outer : ℕ) (right : Char)
    (rest : List Char) : List Char :=
  tailText gap depth parts ++ (newline gap outer ++ right :: rest)

theorem stops_closing (gap depth : ℕ) (parts : List (List Char)) (outer : ℕ) {right : Char}
    (hright : isNumberChar right = false) (rest : List Char) :
    Stops (closing gap depth parts outer right rest) := by
  cases parts with
  | nil => exact stops_newline gap outer (stops_cons rest hright)
  | cons part parts => exact stops_cons _ (by decide)

theorem skipSpace_closing_nil (gap depth outer : ℕ) {right : Char}
    (hright : isSpace right = false) (rest : List Char) :
    skipSpace (closing gap depth [] outer right rest) = right :: rest := by
  rw [closing, tailText, List.flatMap_nil, List.nil_append, skipSpace_newline,
    skipSpace_cons _ hright]

theorem skipSpace_closing_cons (gap depth : ℕ) (part : List Char) (parts : List (List Char))
    (outer : ℕ) (right : Char) (rest : List Char) :
    skipSpace (closing gap depth (part :: parts) outer right rest) =
      ',' :: (newline gap depth ++ (part ++ closing gap depth parts outer right rest)) := by
  rw [closing, tailText, List.flatMap_cons, List.cons_append, List.cons_append,
    skipSpace_cons _ (by decide)]
  simp only [closing, tailText, List.append_assoc]

theorem parseItems_closing {gap depth : ℕ} (outer : ℕ) (rest : List Char) {vs : List (Json N)}
    (hvs : ∀ w ∈ vs, ReadsBack gap depth w) :
    ∀ {v : Json N} {fuel : ℕ}, ReadsBack gap depth v →
      2 * (print gap depth v ++ tailText gap depth (vs.map (print gap depth))).length + 1 ≤ fuel →
      parseItems fuel (newline gap depth ++ (print gap depth v ++
        closing gap depth (vs.map (print gap depth)) outer ']' rest)) = some (v :: vs, rest) := by
  induction vs with
  | nil =>
      intro v fuel hv hfuel
      obtain ⟨fuel, rfl⟩ := Nat.exists_eq_add_of_lt (show 0 < fuel by omega)
      have hvalue := hv fuel _ (by simp at hfuel; omega)
        (stops_closing gap depth [] outer (show isNumberChar ']' = false by decide) rest)
      rw [Nat.zero_add, parseItems, parseValue_skip (skipSpace_newline _ _ _), List.map_nil, hvalue]
      simp only [Option.bind_some,
        skipSpace_closing_nil gap depth outer (show isSpace ']' = false by decide)]
  | cons w vs ih =>
      intro v fuel hv hfuel
      obtain ⟨hw, hrest⟩ := List.forall_mem_cons.mp hvs
      obtain ⟨fuel, rfl⟩ := Nat.exists_eq_add_of_lt (show 0 < fuel by omega)
      have hvalue := hv fuel _ (by simp at hfuel; omega)
        (stops_closing gap depth ((w :: vs).map (print gap depth)) outer
          (show isNumberChar ']' = false by decide) rest)
      rw [Nat.zero_add, parseItems, parseValue_skip (skipSpace_newline _ _ _), hvalue]
      simp only [Option.bind_some, List.map_cons, skipSpace_closing_cons]
      rw [ih hrest hw (by simp [tailText] at hfuel ⊢; omega)]
      rfl

theorem parseFields_step {gap depth : ℕ} {e : List Char × Json N} {fuel : ℕ}
    (he : ReadsBack gap depth e.2) (hfuel : 2 * (entryText gap depth e).length + 1 ≤ fuel + 1)
    (o : JsObject (Json N)) {rest : List Char} (hrest : Stops rest) :
    parseFields (fuel + 1) o (newline gap depth ++ (entryText gap depth e ++ rest)) =
      match skipSpace rest with
      | ',' :: rest => parseFields fuel (o.set e.1 e.2) rest
      | '}' :: rest => some (object (o.set e.1 e.2), rest)
      | _ => none := by
  have hvalue := he fuel rest (by simp [entryText, fieldText] at hfuel; omega) hrest
  have hskip : skipSpace ((if gap = 0 then [] else [' ']) ++ (print gap depth e.2 ++ rest)) =
      skipSpace (print gap depth e.2 ++ rest) := by
    split_ifs <;> rfl
  rw [parseFields, skipSpace_newline, entryText, fieldText, quote]
  simp only [List.cons_append, List.append_assoc, List.nil_append]
  rw [skipSpace_cons _ (by decide)]
  simp only [parseText_flatMap, Option.bind_some]
  rw [skipSpace_cons _ (by decide)]
  simp only [parseValue_skip hskip, hvalue, Option.bind_some]

theorem parseFields_closing {gap depth : ℕ} (outer : ℕ) (rest : List Char)
    {es : List (List Char × Json N)} (hes : ∀ e ∈ es, ReadsBack gap depth e.2) :
    ∀ {e : List Char × Json N} {fuel : ℕ} (o : JsObject (Json N)), ReadsBack gap depth e.2 →
      2 * (entryText gap depth e ++
        tailText gap depth (es.map (entryText gap depth))).length + 1 ≤ fuel →
      parseFields fuel o (newline gap depth ++ (entryText gap depth e ++
        closing gap depth (es.map (entryText gap depth)) outer '}' rest)) =
          some (object ((o.set e.1 e.2).setAll es), rest) := by
  have hstop := fun parts =>
    stops_closing gap depth parts outer (show isNumberChar '}' = false by decide) rest
  induction es with
  | nil =>
      intro e fuel o he hfuel
      obtain ⟨fuel, rfl⟩ := Nat.exists_eq_add_of_lt (show 0 < fuel by omega)
      rw [Nat.zero_add, parseFields_step he (by simp at hfuel ⊢; omega) o (hstop _),
        List.map_nil,
        skipSpace_closing_nil gap depth outer (by decide)]
      rfl
  | cons e' es ih =>
      intro e fuel o he hfuel
      obtain ⟨he', hrest⟩ := List.forall_mem_cons.mp hes
      obtain ⟨fuel, rfl⟩ := Nat.exists_eq_add_of_lt (show 0 < fuel by omega)
      rw [Nat.zero_add, parseFields_step he (by simp at hfuel ⊢; omega) o (hstop _),
        List.map_cons, skipSpace_closing_cons]
      exact ih hrest (o.set e.1 e.2) he' (by simp [tailText] at hfuel ⊢; omega)

theorem readsBack_array {gap depth : ℕ} {items : List (Json N)}
    (h : ∀ v ∈ items, ReadsBack gap (depth + 1) v) : ReadsBack gap depth (array items) := by
  intro fuel rest hfuel _
  rw [print_array] at hfuel ⊢
  cases items with
  | nil =>
      obtain ⟨fuel, rfl⟩ :=
        Nat.exists_eq_add_of_lt (show 0 < fuel by simp [enclose] at hfuel; omega)
      rw [Nat.zero_add]
      rfl
  | cons v vs =>
      obtain ⟨hv, hvs⟩ := List.forall_mem_cons.mp h
      obtain ⟨fuel, rfl⟩ :=
        Nat.exists_eq_add_of_lt (show 0 < fuel by simp [enclose] at hfuel; omega)
      obtain ⟨c, cs, hprint, hspace, hbracket⟩ := exists_print_eq_cons gap (depth + 1) v
      have hlen : 2 * (print gap (depth + 1) v ++
          tailText gap (depth + 1) (vs.map (print gap (depth + 1)))).length + 1 ≤ fuel := by
        simp [enclose] at hfuel ⊢
        omega
      have htext : enclose gap depth '[' ']' ((v :: vs).map (print gap (depth + 1))) ++ rest =
          '[' :: (newline gap (depth + 1) ++ (print gap (depth + 1) v ++
            closing gap (depth + 1) (vs.map (print gap (depth + 1))) depth ']' rest)) := by
        simp [enclose, closing]
      have hhead : (skipSpace (newline gap (depth + 1) ++ (print gap (depth + 1) v ++
          closing gap (depth + 1) (vs.map (print gap (depth + 1))) depth ']' rest))).head? ≠
            some ']' := by
        rw [skipSpace_newline, hprint, List.cons_append, skipSpace_cons _ hspace, List.head?_cons]
        exact fun h => hbracket (Option.some.inj h)
      rw [htext, Nat.zero_add, parseValue, skipSpace_cons _ (by decide)]
      simp only [hhead, if_false, parseItems_closing depth rest hvs hv hlen]
      rfl

theorem readsBack_object {gap depth : ℕ} {o : JsObject (Json N)} (ho : o.Canonical)
    (h : ∀ e ∈ o.entries, ReadsBack gap (depth + 1) e.2) : ReadsBack gap depth (object o) := by
  intro fuel rest hfuel _
  rw [print_object] at hfuel ⊢
  have hall := JsObject.setAll_entries ho
  cases hes : o.entries with
  | nil =>
      rw [hes] at hfuel hall
      obtain ⟨fuel, rfl⟩ :=
        Nat.exists_eq_add_of_lt (show 0 < fuel by simp [enclose] at hfuel; omega)
      rw [Nat.zero_add, ← hall]
      rfl
  | cons e es =>
      rw [hes] at h hfuel hall
      obtain ⟨he, hrest⟩ := List.forall_mem_cons.mp h
      obtain ⟨fuel, rfl⟩ :=
        Nat.exists_eq_add_of_lt (show 0 < fuel by simp [enclose] at hfuel; omega)
      have hlen : 2 * (entryText gap (depth + 1) e ++
          tailText gap (depth + 1) (es.map (entryText gap (depth + 1)))).length + 1 ≤ fuel := by
        simp [enclose] at hfuel ⊢
        omega
      have htext : enclose gap depth '{' '}' ((e :: es).map (entryText gap (depth + 1))) ++ rest =
          '{' :: (newline gap (depth + 1) ++ (entryText gap (depth + 1) e ++
            closing gap (depth + 1) (es.map (entryText gap (depth + 1))) depth '}' rest)) := by
        simp [enclose, closing]
      have hhead : (skipSpace (newline gap (depth + 1) ++ (entryText gap (depth + 1) e ++
          closing gap (depth + 1) (es.map (entryText gap (depth + 1))) depth '}' rest))).head? ≠
            some '}' := by
        rw [skipSpace_newline, entryText, fieldText, quote, List.cons_append, List.cons_append,
          skipSpace_cons _ (by decide), List.head?_cons]
        decide
      have hfields := parseFields_closing depth rest hrest JsObject.empty he hlen
      rw [htext, Nat.zero_add, parseValue, skipSpace_cons _ (by decide)]
      simp only [hhead, if_false, if_true, hfields]
      rw [← hall]
      rfl

/-- Every value is read back wherever it stands. -/
theorem Canonical.readsBack {v : Json N} (h : v.Canonical) (gap depth : ℕ) :
    ReadsBack gap depth v := by
  induction h generalizing depth with
  | null =>
      intro fuel rest hfuel _
      obtain ⟨fuel, rfl⟩ := Nat.exists_eq_add_of_lt (show 0 < fuel by simp [print] at hfuel; omega)
      rw [Nat.zero_add]
      rfl
  | bool b =>
      intro fuel rest hfuel _
      obtain ⟨fuel, rfl⟩ := Nat.exists_eq_add_of_lt
        (show 0 < fuel by cases b <;> simp [print] at hfuel <;> omega)
      rw [Nat.zero_add]
      cases b <;> rfl
  | number hn => exact readsBack_number gap depth hn
  | text t => exact readsBack_text gap depth t
  | array _ ih => exact readsBack_array fun v hv => ih v hv (depth + 1)
  | object ho _ ih => exact readsBack_object ho fun e he => ih e he (depth + 1)

/-- `JSON.parse` gives back what `JSON.stringify` wrote. -/
theorem parse_stringify {v : Json N} (h : v.Canonical) (gap : ℕ) :
    parse (stringify gap v) = some v := by
  have hvalue := h.readsBack gap 0 (2 * (print gap 0 v).length) [] le_rfl fun _ hc => by cases hc
  rw [List.append_nil] at hvalue
  rw [parse, stringify, hvalue]
  rfl

/-- The natural numbers in decimal digits. -/
instance : NumberText ℕ where
  finite _ := true
  finite_natCast _ _ := rfl
  print n := Nat.toDigits 10 n
  read t := if t.all Char.isDigit then some (Nat.ofDigitChars 10 t 0) else none
  print_ne_nil n _ := Nat.toDigits_ne_nil
  isNumberChar_of_mem n _ c hc := by
    have hdigit : c.isDigit = true := Nat.isDigit_of_mem_toDigits (by decide) (by decide) hc
    rw [isNumberChar, hdigit, Bool.true_or]
  read_print n _ := by
    have hdigits : (Nat.toDigits 10 n).all Char.isDigit = true :=
      List.all_eq_true.mpr fun c hc => Nat.isDigit_of_mem_toDigits (by decide) (by decide) hc
    rw [if_pos hdigits, Nat.ofDigitChars_toDigits (by decide) (by decide)]

end Json

end GatoCore.Lib
