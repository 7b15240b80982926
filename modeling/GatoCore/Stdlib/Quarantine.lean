import GatoCore.Stdlib.NameParts
import GatoCore.Stdlib.Workspace

/-!
# The quarantine

Source: `specialFactories.quarentena` of `stdlib/ptstdlib.js`. Paths and aliases are texts.
-/

namespace GatoCore.Stdlib

structure Registro where
  origem : Text
  destino : Text
  deriving DecidableEq

structure Quarentena where
  diretorio : Text
  registros : List Registro

/-- A call of `isolar`; `agora` is the clock. -/
structure Isolamento where
  path : Text
  apelido : Option Text
  agora : ℕ

/-- The alias that a call uses: an empty one is none. -/
def Isolamento.nome (c : Isolamento) : Text :=
  match c.apelido with
  | some apelido => if apelido = [] then c.path else apelido
  | none => c.path

def Isolamento.targetName (c : Isolamento) : Text :=
  sanitizeNamePart (Nat.toDigits 10 c.agora) c.nome

/-- What `restaurar` is called with: a path, or an entry of `registros`. -/
inductive Entrada where
  | caminho (path : Text)
  | registro (r : Registro)

def Entrada.source : Entrada → Text
  | .caminho path => path
  | .registro r => r.destino

def Entrada.origem : Entrada → Text
  | .caminho _ => []
  | .registro r => r.origem

section Host

variable {W : Type} (host : HostDirs) (fs : FileSystem W)

def newQuarentena (dir : Text) : Quarentena :=
  { diretorio := resolveHostPath host (if dir = [] then ".gatocore/quarentena".toList else dir)
    registros := [] }

namespace Quarentena

def destino (q : Quarentena) (c : Isolamento) : Text := joinPath q.diretorio c.targetName

def preparar (q : Quarentena) (w : W) : Resultado Text × W := mkdirHost host fs q.diretorio true w

def isolar (q : Quarentena) (c : Isolamento) (w : W) :
    Resultado (Text × Text) × Quarentena × W :=
  match q.preparar host fs w with
  | (.erro err, w) => (.erro err, q, w)
  | (.ok _ _, w) =>
      match renameHost host fs c.path (q.destino c) w with
      | (.erro err, w) => (.erro err, q, w)
      | (.ok valor caminho, w) =>
          (.ok valor caminho,
            { q with
              registros := q.registros ++
                [{ origem := resolveHostPath host c.path, destino := q.destino c }] }, w)

/-- An empty destination is none. -/
def restaurar (entry : Entrada) (destination : Text) (w : W) : Resultado (Text × Text) × W :=
  let target := if destination = [] then entry.origem else destination
  if entry.source = [] ∨ target = [] then
    (.erro { codigo := "restauracao_invalida"
             mensagem := "entrada de restauracao invalida".toList
             caminhos := [], errno := none }, w)
  else renameHost host fs entry.source target w

end Quarentena

/-- The quarantine and the files after a list of calls. -/
def isolarRun (s : Quarentena × W) (calls : List Isolamento) : Quarentena × W :=
  calls.foldl (fun s c => (s.1.isolar host fs c s.2).2) s

/-- The files after all these entries are restored, one after the other. -/
def restaurarRun (entries : List Registro) (w : W) : W :=
  entries.foldl (fun w r => (Quarentena.restaurar host fs (.registro r) [] w).2) w

end Host

end GatoCore.Stdlib
