import GatoCore.Lib.Machine
import GatoCore.Stdlib.Values
import Mathlib.Logic.Function.Basic

/-!
# Terms and their handlers

Source: `gatocore.registrar_operacao`, `gatocore.registrar_construtor`,
`gatocore.registrar_politica`, `registerByShape`, `callOperation`, `createFunction`,
`registerEntry`, `makePolicy` and `typedRecord` of `stdlib/ptstdlib.js`.

A program registers handlers, the library loads the terms of a dictionary, and the terms are called.
A term is made a function when it is loaded, and what that function runs is decided partly then and
partly when it is called.
-/

namespace GatoCore.Stdlib

open GatoCore.Lib

/-! ## Terms -/

/-- A row of the dictionary. -/
structure Entry where
  termo : Text
  classe : Text
  camada : Text
  uso_tecnico : Text
  deriving DecidableEq

/-- The three tables of handlers. -/
inductive Tipo where
  | operacao
  | construtor
  | politica
  deriving DecidableEq

def Tipo.nome : Tipo → String
  | operacao => "operacao"
  | construtor => "construtor"
  | politica => "politica"

/-- The table whose handlers a term of the class is to use. -/
def Entry.tipo (entry : Entry) : Tipo :=
  if entry.classe = "verbo".toList then .operacao
  else if entry.classe = "politica".toList then .politica
  else .construtor

/-- The terms with a factory of their own, in the order of the source. -/
def specialFactoryNames : List String :=
  ["resultado", "evento", "metrica", "janela_tempo", "buffer", "buffer_fixo", "padrao_kkrieger",
    "vetor", "vetor_compacto", "vetor2", "vetor3", "tensor", "dimensao", "normalizar", "tokenizar",
    "embedding", "embedding_compacto", "indice_vetorial", "indice_vetorial_compacto",
    "vizinho_proximo", "ranquear", "reranquear", "contexto", "configuracao", "perfil", "snapshot",
    "checkpoint", "fila", "fila_circular", "bitset", "pool", "arena", "stream", "coletar",
    "analisar", "validar", "registrar", "classificar", "mensagem_modelo", "prompt", "pipeline",
    "agente", "subagente", "sessao", "sessao_agente", "ferramenta", "modelo", "modelo_chat",
    "porta", "provedor", "http", "provedor_modelo", "rag", "tipo_arquivo", "varrer_arquivo",
    "varrer", "varrer_fluxo", "pcap", "pcapng", "quadro", "pacote", "dissecar",
    "estatistica_protocolo", "estatistica_conversa", "seguir_fluxo", "reassemblar_fluxo",
    "manifesto", "entidade", "componente", "cena", "recurso", "no", "no2d", "no3d", "controle",
    "label", "camera", "camera2d", "camera3d", "sprite2d", "viewport", "sinal", "arvore_cena",
    "cena_empacotada", "tilemap", "animacao", "animador", "bus_audio", "mapa_entrada",
    "configuracao_projeto", "gerenciador_projeto", "painel_dock", "dock", "inspetor",
    "plugin_editor", "cor", "asset", "estado_jogo", "placar", "inventario", "abrir", "workspace",
    "segredo", "autenticar", "autorizar", "canal_mensagem", "workflow", "skill", "gateway", "job",
    "servico", "sandbox", "runtime_docker", "assinatura_binaria", "heuristica", "hash_bloco",
    "quarentena", "restaurar_quarentena", "motor_varredura", "atualizar_banco", "scan_fluxo"]

section Registry

variable {F R : Type}

/-- `specialFactories`; `factory` gives the function written for each of its names. -/
def specialFactories (factory : String → F) (termo : Text) : Option F :=
  (specialFactoryNames.find? fun name => name.toList = termo).map factory

/-- The functions `createFunction` makes: a factory or a constructor is taken as it is. -/
inductive TermFunction (F : Type) where
  | given (fn : F)
  | verbo (entry : Entry)
  | evento (entry : Entry)
  | politica (entry : Entry)
  | registro (entry : Entry)

/-- `handlers` are the tables `operacoes`, `construtores` and `politicas`; `globais` are the terms
among the globals. -/
structure Registry (F : Type) where
  handlers : Tipo → Text → Option F
  globais : Text → Option (TermFunction F)

abbrev RegistryAnswer (F R : Type) := CallResult F R (List (String × JsValue F R))

namespace Registry

/-- Before any term is loaded. -/
def start : Registry F := ⟨fun _ _ => none, fun _ => none⟩

/-! ## Registering and loading -/

/-- What the three functions share: a name, a function, and the table it goes to. -/
def registrarEm (tipo : Tipo) (s : Registry F) :
    JsValue F R → JsValue F R → Registry F × RegistryAnswer F R
  | .text nome, .function fn =>
      let table := Function.update (s.handlers tipo) nome (some fn)
      ({ s with handlers := Function.update s.handlers tipo table },
        .ok [("nome", .text nome), ("tipo", .text tipo.nome.toList)])
  | _, _ =>
      (s, .erro "registro_invalido" ("registrar_" ++ tipo.nome ++ " exige nome e funcao").toList [])

def registrar_operacao : Registry F → JsValue F R → JsValue F R →
    Registry F × RegistryAnswer F R := registrarEm .operacao

def registrar_construtor : Registry F → JsValue F R → JsValue F R →
    Registry F × RegistryAnswer F R := registrarEm .construtor

def registrar_politica : Registry F → JsValue F R → JsValue F R →
    Registry F × RegistryAnswer F R := registrarEm .politica

/-- The function named by a property of the object, if there is one. -/
def functionAt (spec : JsValue F R) (name : String) : Option F :=
  match spec.property name with
  | .function fn => some fn
  | _ => none

/-- The registration `registerByShape` makes of its arguments. -/
def shape : JsValue F R → JsValue F R → Option (Tipo × Text × F)
  | .text nome, .function fn => some (.operacao, nome, fn)
  | spec, _ =>
      if spec.isPlainObject then do
        let nome ← (spec.property "nome").asText
        ((functionAt spec "executar").map fun fn => (.operacao, nome, fn)) <|>
          ((functionAt spec "criar").map fun fn => (.construtor, nome, fn)) <|>
          ((functionAt spec "aplicar").map fun fn => (.politica, nome, fn))
      else none

def registerByShape (s : Registry F) (nameOrSpec maybeFn : JsValue F R) :
    Registry F × RegistryAnswer F R :=
  match shape nameOrSpec maybeFn with
  | some (.operacao, nome, fn) => s.registrar_operacao (.text nome) (.function fn)
  | some (.construtor, nome, fn) => s.registrar_construtor (.text nome) (.function fn)
  | some (.politica, nome, fn) => s.registrar_politica (.text nome) (.function fn)
  | none => (s, .erro "registro_invalido" "formato de registro nao reconhecido".toList [])

def createFunction (factory : String → F) (s : Registry F) (entry : Entry) : TermFunction F :=
  match specialFactories factory entry.termo with
  | some fn => .given fn
  | none =>
      match s.handlers .construtor entry.termo with
      | some fn => .given fn
      | none =>
          if entry.classe = "verbo".toList then .verbo entry
          else if entry.classe = "evento".toList then .evento entry
          else if entry.classe = "politica".toList then .politica entry
          else .registro entry

def registerEntry (factory : String → F) (s : Registry F) (entry : Entry) : Registry F :=
  let fn := s.createFunction factory entry
  { s with globais := Function.update s.globais entry.termo (some fn) }

end Registry

/-! ## Calls -/

/-- How a function ends. -/
inductive Completion (F R : Type) where
  | returned (valor : JsValue F R)
  | threw (err : JsValue F R)

/-- What a term can run. -/
inductive Implementation (F : Type) where
  | handler (fn : F)
  | makeEvent
  | makePolicy
  | typedRecord
  | unsupportedOperation

/-- `ran` are the implementations run, with their arguments. -/
structure TermCall (F R : Type) where
  ran : List (Implementation F × List (JsValue F R))
  outcome : Completion F R

/-- What calls depend on: the text of a value, what functions do and the time. -/
structure CallHost (F R : Type) where
  conv : Conversions F R
  apply : F → List (JsValue F R) → Completion F R
  nowMs : JsValue F R

def typedRecord (entry : Entry) (args : List (JsValue F R)) (criado : JsValue F R) : JsValue F R :=
  .object true (assign [("tipo_recurso", .text entry.termo), ("termo", .text entry.termo),
    ("classe", .text entry.classe), ("camada", .text entry.camada),
    ("uso_tecnico", .text entry.uso_tecnico), ("criado_em_ms", criado)] (normalizeMaybeObject args))

def makePolicy (name : Text) (args : List (JsValue F R)) (criado : JsValue F R) : JsValue F R :=
  .object true [("tipo_recurso", .text "politica".toList), ("nome", .text name),
    ("ativo", .bool (match args with | [] => true | arg :: _ => arg.truthy)),
    ("opcoes", .array args.tail), ("criado_em_ms", criado)]

def unsupportedOperation (entry : Entry) (args : List (JsValue F R)) : JsValue F R :=
  (CallResult.erro "adaptador_ausente" ("operacao '".toList ++ entry.termo ++
      "' requer implementacao especifica de host ou adaptador".toList)
    [("termo", .text entry.termo), ("camada", .text entry.camada),
      ("argumentos", .array (args.map shallowClone))]).record

variable (host : CallHost F R)

/-- The handler is run, and what it does is the outcome. -/
def CallHost.runHandler (fn : F) (args : List (JsValue F R)) : TermCall F R :=
  ⟨[(.handler fn, args)], host.apply fn args⟩

def Registry.callOperation (s : Registry F) (entry : Entry) (args : List (JsValue F R)) :
    TermCall F R :=
  match s.handlers .operacao entry.termo with
  | some fn =>
      ⟨[(.handler fn, args)],
        match host.apply fn args with
        | .returned valor => .returned valor
        | .threw err =>
            .returned (CallResult.erro "falha_operacao" (host.conv.string err)
              [("termo", .text entry.termo)]).record⟩
  | none => ⟨[(.unsupportedOperation, args)], .returned (unsupportedOperation entry args)⟩

/-- A call of the function of a term. -/
def Registry.call (s : Registry F) (args : List (JsValue F R)) : TermFunction F → TermCall F R
  | .given fn => host.runHandler fn args
  | .verbo entry => s.callOperation host entry args
  | .evento entry =>
      ⟨[(.makeEvent, args)], .returned (makeEvent (.text entry.termo) args host.nowMs)⟩
  | .politica entry =>
      match s.handlers .politica entry.termo with
      | some fn => host.runHandler fn args
      | none => ⟨[(.makePolicy, args)], .returned (makePolicy entry.termo args host.nowMs)⟩
  | .registro entry => ⟨[(.typedRecord, args)], .returned (typedRecord entry args host.nowMs)⟩

/-- A call of a global term. -/
def Registry.callTerm (s : Registry F) (termo : Text) (args : List (JsValue F R)) :
    Option (TermCall F R) :=
  (s.globais termo).map (s.call host args)

/-! ## Runs -/

/-- What happens to the tables; a dictionary is loaded one entry after the other. -/
inductive RegistryOp (F R : Type) where
  | registrar_operacao (name fn : JsValue F R)
  | registrar_construtor (name fn : JsValue F R)
  | registrar_politica (name fn : JsValue F R)
  | registrar (nameOrSpec maybeFn : JsValue F R)
  | registerEntry (entry : Entry)

def registryStep (factory : String → F) :
    Machine (Registry F) (RegistryOp F R) (Option (RegistryAnswer F R))
  | s, .registrar_operacao name fn => (s.registrar_operacao name fn).map id some
  | s, .registrar_construtor name fn => (s.registrar_construtor name fn).map id some
  | s, .registrar_politica name fn => (s.registrar_politica name fn).map id some
  | s, .registrar nameOrSpec maybeFn => (s.registerByShape nameOrSpec maybeFn).map id some
  | s, .registerEntry entry => (s.registerEntry factory entry, none)

variable {factory : String → F}

/-- The tables after a run from the start. -/
def registryAfter (factory : String → F) (ops : List (RegistryOp F R)) : Registry F :=
  ((registryStep factory).run .start ops).1

/-- The registration an operation asks for. -/
def RegistryOp.request : RegistryOp F R → Option (Tipo × JsValue F R × JsValue F R)
  | .registrar_operacao name fn => some (.operacao, name, fn)
  | .registrar_construtor name fn => some (.construtor, name, fn)
  | .registrar_politica name fn => some (.politica, name, fn)
  | .registrar nameOrSpec maybeFn =>
      (Registry.shape nameOrSpec maybeFn).map fun (tipo, nome, fn) =>
        (tipo, .text nome, .function fn)
  | .registerEntry _ => none

/-- After `pre` the handler is registered, and under that name nothing of the kind after it. -/
def LastRequest (ops pre : List (RegistryOp F R)) (op : RegistryOp F R) (tipo : Tipo) (termo : Text)
    (fn : F) : Prop :=
  ∃ post, ops = pre ++ op :: post ∧ op.request = some (tipo, .text termo, .function fn) ∧
    ∀ later ∈ post, ∀ value, later.request ≠ some (tipo, .text termo, value)

/-- The last registration of the kind under that name gives the handler, and reports success. -/
def LastRegistration (factory : String → F) (ops : List (RegistryOp F R)) (tipo : Tipo)
    (termo : Text) (fn : F) : Prop :=
  ∃ pre op, LastRequest ops pre op tipo termo fn ∧
    ∃ info, (registryStep factory (registryAfter factory pre) op).2 = some (.ok info)

/-- The entry is loaded after `before`, and it is the last one of its term. -/
def LoadedLast (ops before : List (RegistryOp F R)) (entry : Entry) : Prop :=
  ∃ after, ops = before ++ .registerEntry entry :: after ∧
    ∀ later ∈ after, ∀ entry', later = .registerEntry entry' → entry'.termo ≠ entry.termo

/-- A term runs the handler that was registered last for its class, and nothing else. -/
def RegistrationsHonoured (factory : String → F) (ops : List (RegistryOp F R)) : Prop :=
  ∀ before entry, LoadedLast ops before entry →
    ∀ fn, LastRegistration factory ops entry.tipo entry.termo fn →
      ∀ (host : CallHost F R) (args : List (JsValue F R)), ∃ call,
        (registryAfter factory ops).callTerm host entry.termo args = some call ∧
          call.ran = [(.handler fn, args)]

/-- The handler a well-formed registration of the kind under that name gives. -/
def RegistryOp.granted (tipo : Tipo) (termo : Text) (op : RegistryOp F R) : Option F :=
  match op.request with
  | some (tipo', .text nome, .function fn) => if tipo' = tipo ∧ nome = termo then some fn else none
  | _ => none

/-- The function a term has from its load on, whatever is registered later: its factory, or the
constructor registered last before the load. -/
def fixedFunction (factory : String → F) (before : List (RegistryOp F R)) (entry : Entry) :
    Option F :=
  (specialFactories factory entry.termo).or
    (lastWrite (RegistryOp.granted .construtor entry.termo) before)

/-- The handlers registered last are those fixed by the load, and where the load fixed none, the
class is one whose handlers are looked up at the call. -/
def RegistrationsInForce (factory : String → F) (ops : List (RegistryOp F R)) : Prop :=
  ∀ before entry, LoadedLast ops before entry →
    ∀ fn, (∃ pre op, LastRequest ops pre op entry.tipo entry.termo fn) →
      fixedFunction factory before entry = some fn ∨
        fixedFunction factory before entry = none ∧ entry.tipo ≠ .construtor

/-! ## What a step does -/

/-- A registration is one call of `registrarEm`. -/
theorem registryStep_request {op : RegistryOp F R} {tipo : Tipo} {name fn : JsValue F R}
    (hop : op.request = some (tipo, name, fn)) (s : Registry F) :
    registryStep factory s op = (s.registrarEm tipo name fn).map id some := by
  cases op with
  | registrar_operacao name' fn' | registrar_construtor name' fn' | registrar_politica name' fn' =>
      cases hop
      rfl
  | registrar nameOrSpec maybeFn =>
      obtain ⟨⟨tipo', nome, h⟩, hshape, heq⟩ := Option.map_eq_some_iff.mp hop
      cases heq
      show (s.registerByShape nameOrSpec maybeFn).map id some = _
      rw [Registry.registerByShape, hshape]
      cases tipo <;> rfl
  | registerEntry entry => cases hop

theorem registryStep_registrar_of_shape_eq_none {nameOrSpec maybeFn : JsValue F R}
    (h : Registry.shape nameOrSpec maybeFn = none) (s : Registry F) :
    (registryStep factory s (.registrar nameOrSpec maybeFn)).1 = s := by
  show (s.registerByShape nameOrSpec maybeFn).1 = s
  rw [Registry.registerByShape, h]

/-- Without a request the tables of handlers stay. -/
theorem registryStep_handlers_of_request_eq_none {op : RegistryOp F R} (hop : op.request = none)
    (s : Registry F) : (registryStep factory s op).1.handlers = s.handlers := by
  cases op with
  | registrar_operacao name fn | registrar_construtor name fn | registrar_politica name fn =>
      cases hop
  | registrar nameOrSpec maybeFn =>
      rw [registryStep_registrar_of_shape_eq_none (Option.map_eq_none_iff.mp hop)]
  | registerEntry entry => rfl

theorem registrarEm_handlers (s : Registry F) (tipo tipo' : Tipo) (termo : Text)
    (name fn : JsValue F R) :
    (s.registrarEm tipo' name fn).1.handlers tipo termo =
      (match name, fn with
        | .text nome, .function h => if tipo' = tipo ∧ nome = termo then some h else none
        | _, _ => none).or (s.handlers tipo termo) := by
  unfold Registry.registrarEm
  split
  · rename_i nome h
    by_cases htipo : tipo' = tipo
    · subst htipo
      by_cases hnome : nome = termo
      · subst hnome
        simp
      · simp [hnome, Function.update_of_ne (Ne.symm hnome)]
    · simp [htipo, Function.update_of_ne (Ne.symm htipo)]
  · rfl

/-- A step writes the handler it grants. -/
theorem registryStep_handlers (s : Registry F) (op : RegistryOp F R) (tipo : Tipo) (termo : Text) :
    (registryStep factory s op).1.handlers tipo termo =
      (op.granted tipo termo).or (s.handlers tipo termo) := by
  rcases hop : op.request with _ | ⟨tipo', name, fn⟩
  · rw [registryStep_handlers_of_request_eq_none hop, RegistryOp.granted, hop, Option.none_or]
  · rw [registryStep_request hop]
    show (s.registrarEm tipo' name fn).1.handlers tipo termo = _
    rw [registrarEm_handlers, RegistryOp.granted, hop]
    cases name <;> cases fn <;> rfl

/-- A step leaves the terms it does not load. -/
theorem registryStep_globais {op : RegistryOp F R} {termo : Text}
    (hop : ∀ entry, op = .registerEntry entry → entry.termo ≠ termo) (s : Registry F) :
    (registryStep factory s op).1.globais termo = s.globais termo := by
  have hrequest : ∀ tipo (name fn : JsValue F R),
      (s.registrarEm tipo name fn).1.globais = s.globais := by
    intro tipo name fn
    unfold Registry.registrarEm
    split <;> rfl
  rcases hreq : op.request with _ | ⟨tipo, name, fn⟩
  · cases op with
    | registrar_operacao name fn | registrar_construtor name fn | registrar_politica name fn =>
        cases hreq
    | registrar nameOrSpec maybeFn =>
        rw [registryStep_registrar_of_shape_eq_none (Option.map_eq_none_iff.mp hreq)]
    | registerEntry entry => exact Function.update_of_ne (Ne.symm (hop entry rfl)) _ _
  · rw [registryStep_request hreq]
    show (s.registrarEm tipo name fn).1.globais termo = _
    rw [hrequest]

/-! ## What a run does -/

/-- The tables hold what was granted last. -/
theorem registryAfter_handlers (ops : List (RegistryOp F R)) (tipo : Tipo) (termo : Text) :
    (registryAfter factory ops).handlers tipo termo =
      lastWrite (RegistryOp.granted tipo termo) ops := by
  have h := Machine.view_run (registryStep factory)
    (fun s => s.handlers tipo termo) (fun s op => registryStep_handlers s op tipo termo)
    Registry.start ops
  rw [registryAfter, h]
  exact Option.or_none

/-- A registration of a function under a text reports success. -/
theorem LastRequest.lastRegistration {ops pre : List (RegistryOp F R)} {op : RegistryOp F R}
    {tipo : Tipo} {termo : Text} {fn : F} (h : LastRequest ops pre op tipo termo fn) :
    LastRegistration factory ops tipo termo fn := by
  obtain ⟨-, -, hop, -⟩ := id h
  refine ⟨pre, op, h, [("nome", .text termo), ("tipo", .text tipo.nome.toList)], ?_⟩
  rw [registryStep_request hop]
  rfl

theorem LastRequest.lastWrite_eq {ops pre : List (RegistryOp F R)} {op : RegistryOp F R}
    {tipo : Tipo} {termo : Text} {fn : F} (h : LastRequest ops pre op tipo termo fn) :
    lastWrite (RegistryOp.granted tipo termo) ops = some fn := by
  obtain ⟨post, rfl, hop, hpost⟩ := h
  have hlater : ∀ later ∈ post, later.granted tipo termo = none := by
    intro later hlater
    unfold RegistryOp.granted
    split
    · rename_i tipo' nome fn' hreq
      rw [if_neg]
      rintro ⟨rfl, rfl⟩
      exact hpost later hlater _ hreq
    · rfl
  rw [lastWrite_split hlater, RegistryOp.granted, hop]
  simp

/-- A term has the function made of it when it was loaded. -/
theorem LoadedLast.globais_eq {ops before : List (RegistryOp F R)} {entry : Entry}
    (h : LoadedLast ops before entry) :
    (registryAfter factory ops).globais entry.termo =
      some ((registryAfter factory before).createFunction factory entry) := by
  obtain ⟨after, rfl, hafter⟩ := h
  rw [registryAfter, Machine.run_append, Machine.run_cons]
  rw [Machine.view_run_eq (registryStep factory) (fun s => s.globais entry.termo) fun op hop s =>
    registryStep_globais (fun entry' heq => hafter op hop entry' heq) s]
  exact Function.update_self _ _ _

/-- What the function of a term runs. -/
def Registry.implementation (s : Registry F) : TermFunction F → Implementation F
  | .given fn => .handler fn
  | .verbo entry => (s.handlers .operacao entry.termo).elim .unsupportedOperation .handler
  | .evento _ => .makeEvent
  | .politica entry => (s.handlers .politica entry.termo).elim .makePolicy .handler
  | .registro _ => .typedRecord

theorem Registry.call_ran (s : Registry F) (host : CallHost F R) (args : List (JsValue F R))
    (fn : TermFunction F) : (s.call host args fn).ran = [(s.implementation fn, args)] := by
  cases fn with
  | given fn | evento entry | registro entry => rfl
  | verbo entry =>
      show (s.callOperation host entry args).ran = _
      rw [Registry.callOperation, Registry.implementation]
      cases s.handlers .operacao entry.termo <;> rfl
  | politica entry =>
      rw [Registry.call, Registry.implementation]
      cases s.handlers .politica entry.termo <;> rfl

/-- The function made at the load is the fixed one, or one that depends on the class. -/
theorem createFunction_eq (before : List (RegistryOp F R)) (entry : Entry) :
    (registryAfter factory before).createFunction factory entry =
      match fixedFunction factory before entry with
      | some fn => .given fn
      | none =>
          if entry.classe = "verbo".toList then .verbo entry
          else if entry.classe = "evento".toList then .evento entry
          else if entry.classe = "politica".toList then .politica entry
          else .registro entry := by
  rw [Registry.createFunction, registryAfter_handlers, fixedFunction]
  cases specialFactories factory entry.termo with
  | some fn => rfl
  | none => rw [Option.none_or]

/-- A term with a registered handler of its class runs that handler when the load fixed it, or
fixed nothing and the class is looked up at the call. -/
theorem implementation_eq_handler_iff {ops before : List (RegistryOp F R)} {entry : Entry} {fn : F}
    (hfn : lastWrite (RegistryOp.granted entry.tipo entry.termo) ops = some fn) :
    (registryAfter factory ops).implementation
        ((registryAfter factory before).createFunction factory entry) = .handler fn ↔
      fixedFunction factory before entry = some fn ∨
        fixedFunction factory before entry = none ∧ entry.tipo ≠ .construtor := by
  rw [createFunction_eq]
  rcases fixedFunction factory before entry with _ | fixed
  · have hhandlers : (registryAfter factory ops).handlers entry.tipo entry.termo = some fn := by
      rw [registryAfter_handlers, hfn]
    unfold Entry.tipo at hhandlers ⊢
    split_ifs at hhandlers ⊢ with hverbo hpolitica hevento <;>
      simp_all [Registry.implementation]
  · simp [Registry.implementation]

/-- Registrations take effect in exactly the runs where the load of a term does not stand against
its last registration. -/
theorem registrations_honoured_iff (factory : String → F) (ops : List (RegistryOp F R)) :
    RegistrationsHonoured factory ops ↔ RegistrationsInForce factory ops := by
  constructor
  · intro h before entry hload fn hlast
    obtain ⟨pre, op, hlast⟩ := hlast
    obtain ⟨call, hcall, hran⟩ := h before entry hload fn hlast.lastRegistration
      ⟨⟨fun _ => [], fun _ => 0⟩, fun _ _ => .returned .undefined, .undefined⟩ []
    rw [Registry.callTerm, hload.globais_eq] at hcall
    rw [← Option.some.inj hcall, Registry.call_ran] at hran
    simp only [List.cons.injEq, Prod.mk.injEq, and_true] at hran
    exact (implementation_eq_handler_iff hlast.lastWrite_eq).mp hran
  · intro h before entry hload fn hlast host args
    obtain ⟨pre, op, hlast, -⟩ := hlast
    refine ⟨_, by rw [Registry.callTerm, hload.globais_eq]; rfl, ?_⟩
    have hforce := h before entry hload fn ⟨pre, op, hlast⟩
    rw [Registry.call_ran, (implementation_eq_handler_iff hlast.lastWrite_eq).mpr hforce]

/-- A term of the dictionary that is a resource. -/
def rota : Entry where
  termo := "rota".toList
  classe := "recurso".toList
  camada := "runtime".toList
  uso_tecnico := "regra de encaminhamento".toList

/-- A constructor registered once the dictionary is loaded is not used, though its registration
reports success. -/
theorem lateConstructor_not_honoured :
    ¬RegistrationsHonoured (fun _ => 0)
      [.registerEntry rota, (.registrar_construtor (.text "rota".toList) (.function 1) :
        RegistryOp ℕ Unit)] := by
  intro h
  obtain ⟨call, hcall, hran⟩ := h [] rota
    ⟨[.registrar_construtor (.text "rota".toList) (.function 1)], rfl, by simp⟩ 1
    ⟨[.registerEntry rota], .registrar_construtor (.text "rota".toList) (.function 1),
      ⟨[], rfl, rfl, by simp⟩, _, rfl⟩
    ⟨⟨fun _ => [], fun _ => 0⟩, fun _ _ => .returned .undefined, .undefined⟩ []
  cases hcall
  cases hran

end Registry

end GatoCore.Stdlib
