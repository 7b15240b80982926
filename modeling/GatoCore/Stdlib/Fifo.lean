import GatoCore.Lib.Machine
import GatoCore.Stdlib.Values

/-!
# Queues

Source: `fila`, `stream` and `canal_mensagem` of `specialFactories` in `stdlib/ptstdlib.js`.

The state of a queue is a growing array and the index of its head; elements before the head are
gone. Once the head is far enough, `compactar` drops them and the head is zero again. An array is
the list of what its indices read.
-/

namespace GatoCore.Stdlib

open GatoCore.Lib

/-! ## The state -/

/-- `stateQ` of `fila` and `stateStream` of `stream`. -/
structure Fifo (α : Type) where
  itens : List α
  cabeca : ℕ
  inRange : cabeca ≤ itens.length

namespace Fifo

variable {α : Type}

/-- `Array.isArray(items) ? items.slice() : []`. -/
def ofItems (items : Option (List α)) : Fifo α := ⟨items.getD [], 0, Nat.zero_le _⟩

def compactar (q : Fifo α) : Fifo α :=
  if q.cabeca > 64 ∧ q.cabeca * 2 ≥ q.itens.length then
    ⟨q.itens.drop q.cabeca, 0, Nat.zero_le _⟩
  else q

def push (q : Fifo α) (value : α) : Fifo α × ℕ :=
  (⟨q.itens ++ [value], q.cabeca, by have := q.inRange; simp; omega⟩,
    (q.itens ++ [value]).length - q.cabeca)

/-- The element taken is overwritten with `undefined`. -/
def pop (undefined : α) (q : Fifo α) : Fifo α × Option α :=
  if h : q.cabeca < q.itens.length then
    (compactar ⟨q.itens.set q.cabeca undefined, q.cabeca + 1, by simpa [Nat.succ_le_iff] using h⟩,
      some q.itens[q.cabeca])
  else (q, none)

def peek (q : Fifo α) : Option α :=
  if h : q.cabeca < q.itens.length then some q.itens[q.cabeca] else none

def size (q : Fifo α) : ℕ := q.itens.length - q.cabeca

def isEmpty (q : Fifo α) : Bool := q.size = 0

/-- `itens.slice(cabeca)`. -/
def toList (q : Fifo α) : List α := q.itens.drop q.cabeca

end Fifo

/-! ## The operations -/

/-- What an operation returns. -/
inductive Answer (α : Type) where
  | value (v : α)
  | null
  | number (n : ℕ)
  | bool (b : Bool)
  | list (xs : List α)

def Answer.ofOption {α : Type} : Option α → Answer α
  | some v => value v
  | none => null

section Objects

variable {α : Type}

inductive FilaOp (α : Type) where
  | empurrar (value : α)
  | tirar
  | espiar
  | tamanho
  | vazia
  | itens

def fila (items : Option (List α)) : Fifo α := Fifo.ofItems items

def filaStep (undefined : α) : Machine (Fifo α) (FilaOp α) (Answer α)
  | q, .empurrar value => ((q.push value).1, .number (q.push value).2)
  | q, .tirar => ((q.pop undefined).1, .ofOption (q.pop undefined).2)
  | q, .espiar => (q, .ofOption q.peek)
  | q, .tamanho => (q, .number q.size)
  | q, .vazia => (q, .bool q.isEmpty)
  | q, .itens => (q, .list q.toList)

inductive StreamOp (α : Type) where
  | escrever (value : α)
  | ler
  | listar
  | itens

def stream (items : Option (List α)) : Fifo α := Fifo.ofItems items

def streamStep (undefined : α) : Machine (Fifo α) (StreamOp α) (Answer α)
  | q, .escrever value => ((q.push value).1, .number (q.push value).2)
  | q, .ler => ((q.pop undefined).1, .ofOption (q.pop undefined).2)
  | q, .listar => (q, .list q.toList)
  | q, .itens => (q, .list q.toList)

variable {F R : Type}

/-- A channel is a queue with a name, and has the operations of the queue too. `emitido` is what
`nowMs()` gives during the call. -/
inductive CanalOp (F R : Type) where
  | enviar (value emitido : JsValue F R)
  | receber
  | fila (op : FilaOp (JsValue F R))

structure Canal (F R : Type) where
  queue : Fifo (JsValue F R)
  nome : JsValue F R

def canal_mensagem (name : JsValue F R) : Canal F R :=
  { queue := fila none, nome := name.or (.text "canal".toList) }

def canalStep : Machine (Canal F R) (CanalOp F R) (Answer (JsValue F R))
  | c, .enviar value emitido =>
      let queue := (c.queue.push (makeEvent c.nome [value] emitido)).1
      ({ c with queue }, .number queue.size)
  | c, .receber =>
      ({ c with queue := (c.queue.pop .undefined).1 }, .ofOption (c.queue.pop .undefined).2)
  | c, .fila op =>
      ({ c with queue := (filaStep .undefined c.queue op).1 }, (filaStep .undefined c.queue op).2)

end Objects

/-! ## First in, first out -/

inductive FifoOp (α : Type) where
  | push (value : α)
  | pop
  | peek
  | size
  | isEmpty
  | items

/-- The queue as a list: appended to at the end, taken from at the front. -/
def listStep {α : Type} : Machine (List α) (FifoOp α) (Answer α)
  | xs, .push value => (xs ++ [value], .number (xs.length + 1))
  | [], .pop => ([], .null)
  | x :: xs, .pop => (xs, .value x)
  | [], .peek => ([], .null)
  | x :: xs, .peek => (x :: xs, .value x)
  | xs, .size => (xs, .number xs.length)
  | xs, .isEmpty => (xs, .bool xs.isEmpty)
  | xs, .items => (xs, .list xs)

/-- The elements put in, oldest first. -/
def pushed {α : Type} (ops : List (FifoOp α)) : List α :=
  ops.filterMap fun
    | .push value => some value
    | _ => none

/-- The elements taken out, oldest first. -/
def taken {α : Type} (ops : List (FifoOp α)) (answers : List (Answer α)) : List α :=
  (ops.zip answers).filterMap fun
    | (.pop, .value v) => some v
    | _ => none

/-- Every run gives the answers of the list and ends with its elements, and what was there or put
in is what was taken out followed by what is left. -/
structure RefinesList {α σ ο : Type} (step : Machine σ ο (Answer α)) (contents : σ → List α)
    (spec : ο → FifoOp α) (start : σ) : Prop where
  answers : ∀ ops, (step.run start ops).2 = (listStep.run (contents start) (ops.map spec)).2
  elements : ∀ ops,
    contents (step.run start ops).1 = (listStep.run (contents start) (ops.map spec)).1
  conserved : ∀ ops,
    contents start ++ pushed (ops.map spec) =
      taken (ops.map spec) (step.run start ops).2 ++ contents (step.run start ops).1

section Spec

variable {α F R : Type}

def FilaOp.spec : FilaOp α → FifoOp α
  | empurrar value => .push value
  | tirar => .pop
  | espiar => .peek
  | tamanho => .size
  | vazia => .isEmpty
  | itens => .items

def StreamOp.spec : StreamOp α → FifoOp α
  | escrever value => .push value
  | ler => .pop
  | listar => .items
  | itens => .items

/-- What is sent is an event of the channel. -/
def CanalOp.spec (nome : JsValue F R) : CanalOp F R → FifoOp (JsValue F R)
  | enviar value emitido => .push (makeEvent nome [value] emitido)
  | receber => .pop
  | fila op => op.spec

end Spec

/-! ## One operation -/

section Steps

variable {α : Type}

namespace Fifo

@[simp] theorem ofItems_toList (items : Option (List α)) : (ofItems items).toList = items.getD [] :=
  rfl

/-- Dropping what is before the head loses nothing. -/
@[simp] theorem compactar_toList (q : Fifo α) : q.compactar.toList = q.toList := by
  unfold compactar
  split
  · rfl
  · rfl

theorem size_eq (q : Fifo α) : q.size = q.toList.length := by
  simp [size, toList]

theorem isEmpty_eq (q : Fifo α) : q.isEmpty = q.toList.isEmpty := by
  rw [isEmpty, size_eq]
  cases q.toList with
  | nil => rfl
  | cons x xs => rfl

@[simp] theorem push_toList (q : Fifo α) (value : α) :
    (q.push value).1.toList = q.toList ++ [value] :=
  List.drop_append_of_le_length q.inRange

theorem push_size (q : Fifo α) (value : α) : (q.push value).2 = (q.push value).1.size := rfl

/-- The head is the first element of the list. -/
theorem toList_eq_cons (q : Fifo α) (h : q.cabeca < q.itens.length) :
    q.toList = q.itens[q.cabeca] :: q.itens.drop (q.cabeca + 1) :=
  List.drop_eq_getElem_cons h

theorem toList_eq_nil (q : Fifo α) (h : ¬ q.cabeca < q.itens.length) : q.toList = [] :=
  List.drop_eq_nil_of_le (Nat.le_of_not_lt h)

theorem peek_eq (q : Fifo α) : q.peek = q.toList.head? := by
  unfold peek
  split
  · case isTrue h => simp [q.toList_eq_cons h]
  · case isFalse h => simp [q.toList_eq_nil h]

theorem pop_snd (undefined : α) (q : Fifo α) : (q.pop undefined).2 = q.toList.head? := by
  unfold pop
  split
  · case isTrue h => simp [q.toList_eq_cons h]
  · case isFalse h => simp [q.toList_eq_nil h]

/-- The element overwritten is before the new head. -/
theorem pop_toList (undefined : α) (q : Fifo α) : (q.pop undefined).1.toList = q.toList.tail := by
  unfold pop
  split
  · case isTrue h =>
    rw [q.toList_eq_cons h, List.tail_cons, compactar_toList]
    exact List.drop_set_of_lt (Nat.lt_succ_self _)
  · case isFalse h => simp [q.toList_eq_nil h]

end Fifo

theorem listStep_pop (xs : List α) : listStep xs .pop = (xs.tail, .ofOption xs.head?) := by
  cases xs with
  | nil => rfl
  | cons x xs => rfl

theorem listStep_peek (xs : List α) : listStep xs .peek = (xs, .ofOption xs.head?) := by
  cases xs with
  | nil => rfl
  | cons x xs => rfl

theorem filaStep_spec (undefined : α) (q : Fifo α) (op : FilaOp α) :
    ((filaStep undefined q op).1.toList, (filaStep undefined q op).2) =
      listStep q.toList op.spec := by
  cases op with
  | empurrar value => simp [filaStep, FilaOp.spec, listStep, Fifo.push_size, Fifo.size_eq]
  | tirar => simp [filaStep, FilaOp.spec, listStep_pop, Fifo.pop_toList, Fifo.pop_snd]
  | espiar => simp [filaStep, FilaOp.spec, listStep_peek, Fifo.peek_eq]
  | tamanho => simp [filaStep, FilaOp.spec, listStep, Fifo.size_eq]
  | vazia => simp [filaStep, FilaOp.spec, listStep, Fifo.isEmpty_eq]
  | itens => rfl

/-- An operation of a stream is one of a queue. -/
def StreamOp.fila : StreamOp α → FilaOp α
  | escrever value => .empurrar value
  | ler => .tirar
  | listar => .itens
  | itens => .itens

theorem streamStep_spec (undefined : α) (q : Fifo α) (op : StreamOp α) :
    ((streamStep undefined q op).1.toList, (streamStep undefined q op).2) =
      listStep q.toList op.spec := by
  have hfila : streamStep undefined q op = filaStep undefined q op.fila := by cases op <;> rfl
  have hspec : op.spec = op.fila.spec := by cases op <;> rfl
  rw [hfila, hspec]
  exact filaStep_spec undefined q op.fila

variable {F R : Type}

@[simp] theorem canalStep_nome (c : Canal F R) (op : CanalOp F R) :
    (canalStep c op).1.nome = c.nome := by
  cases op <;> rfl

theorem canalStep_spec (c : Canal F R) (op : CanalOp F R) :
    ((canalStep c op).1.queue.toList, (canalStep c op).2) =
      listStep c.queue.toList (op.spec c.nome) := by
  cases op with
  | enviar value emitido =>
      exact filaStep_spec .undefined c.queue (.empurrar (makeEvent c.nome [value] emitido))
  | receber => exact filaStep_spec .undefined c.queue .tirar
  | fila op => exact filaStep_spec .undefined c.queue op

/-! ## Whole runs -/

/-- Nothing is lost, doubled or reordered in one operation on the list. -/
theorem listStep_conserves (xs : List α) (op : FifoOp α) :
    xs ++ pushed [op] = taken [op] [(listStep xs op).2] ++ (listStep xs op).1 := by
  cases op with
  | push value => simp [pushed, taken, listStep]
  | pop => cases xs <;> simp [pushed, taken, listStep]
  | peek => cases xs <;> simp [pushed, taken, listStep]
  | size => simp [pushed, taken, listStep]
  | isEmpty => simp [pushed, taken, listStep]
  | items => simp [pushed, taken, listStep]

theorem pushed_cons (op : FifoOp α) (ops : List (FifoOp α)) :
    pushed (op :: ops) = pushed [op] ++ pushed ops :=
  List.filterMap_append (l := [op])

theorem taken_cons (op : FifoOp α) (ops : List (FifoOp α)) (a : Answer α) (as : List (Answer α)) :
    taken (op :: ops) (a :: as) = taken [op] [a] ++ taken ops as :=
  List.filterMap_append (l := [(op, a)])

theorem listStep_run_conserves (xs : List α) (ops : List (FifoOp α)) :
    xs ++ pushed ops = taken ops (listStep.run xs ops).2 ++ (listStep.run xs ops).1 := by
  induction ops generalizing xs with
  | nil => simp [pushed, taken]
  | cons op ops ih =>
      calc
        xs ++ pushed (op :: ops) = (xs ++ pushed [op]) ++ pushed ops := by
          rw [pushed_cons, List.append_assoc]
        _ = taken [op] [(listStep xs op).2] ++ ((listStep xs op).1 ++ pushed ops) := by
          rw [listStep_conserves, List.append_assoc]
        _ = _ := by
          rw [ih, ← List.append_assoc, ← taken_cons]
          rfl

/-- A machine whose every step is that of the list refines it. -/
theorem RefinesList.of_simulates {σ ο : Type} {step : Machine σ ο (Answer α)}
    {contents : σ → List α} {spec : ο → FifoOp α} {start : σ} (Inv : σ → Prop) (hstart : Inv start)
    (hInv : step.Preserves Inv)
    (hstep : ∀ s op, Inv s →
      (contents (step s op).1, (step s op).2) = listStep (contents s) (spec op)) :
    RefinesList step contents spec start := by
  have hsim : Machine.Simulates (fun s xs => Inv s ∧ contents s = xs) step
      (listStep.comap spec) := by
    rintro s xs op ⟨hs, rfl⟩
    have hop := hstep s op hs
    exact ⟨⟨hInv s op hs, congrArg Prod.fst hop⟩, congrArg Prod.snd hop⟩
  have hrun : ∀ ops, contents (step.run start ops).1 =
        (listStep.run (contents start) (ops.map spec)).1 ∧
      (step.run start ops).2 = (listStep.run (contents start) (ops.map spec)).2 := by
    intro ops
    have hops := hsim.run ⟨hstart, rfl⟩ ops
    rw [Machine.comap_run] at hops
    exact ⟨hops.1.2, hops.2⟩
  constructor
  · intro ops
    exact (hrun ops).2
  · intro ops
    exact (hrun ops).1
  · intro ops
    rw [(hrun ops).1, (hrun ops).2]
    exact listStep_run_conserves _ _

/-- The queue, the stream and the channel are first in, first out: from every initial array, every
sequence of operations is answered as the list answers it. -/
theorem queues_refine_list (undefined : α) (items : Option (List α)) (name : JsValue F R) :
    RefinesList (filaStep undefined) Fifo.toList FilaOp.spec (fila items) ∧
      RefinesList (streamStep undefined) Fifo.toList StreamOp.spec (stream items) ∧
      RefinesList canalStep (fun c => c.queue.toList)
        (CanalOp.spec (canal_mensagem name).nome) (canal_mensagem name) ∧
      (fila items).toList = items.getD [] ∧ (stream items).toList = items.getD [] ∧
      (canal_mensagem name).queue.toList = [] := by
  refine ⟨?_, ?_, ?_, rfl, rfl, rfl⟩
  · exact RefinesList.of_simulates (fun _ => True) trivial (fun _ _ _ => trivial)
      fun q op _ => filaStep_spec undefined q op
  · exact RefinesList.of_simulates (fun _ => True) trivial (fun _ _ _ => trivial)
      fun q op _ => streamStep_spec undefined q op
  · refine RefinesList.of_simulates (fun c => c.nome = (canal_mensagem name).nome) rfl
      ?_ ?_
    · intro c op hc
      exact (canalStep_nome c op).trans hc
    · intro c op hc
      rw [← hc]
      exact canalStep_spec c op

end Steps

end GatoCore.Stdlib
