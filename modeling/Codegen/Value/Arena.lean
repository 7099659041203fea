import Codegen.Fault

/-!
# The arena of values

Every value of a function has a cell: its present handle, its format, the variables it stands for,
its lifetime and the instruction that makes it. Joined cells form a system: each of them has an
edge to each other, and the edges on which changes travel are marked as sending.

* `Arena.system`, `Arena.receivers`: the cells that a change may reach;
* `Arena.useAt`: extends lifetimes;
* `Arena.setHandle`, `Arena.setMetadata`: changes that travel along the edges;
* `Arena.join`: makes one system of two.
-/

namespace Codegen

/-! ## Cells -/

/-- What is known of a value beside its place. -/
structure Metadata where
  /-- The variables whose value the cell holds. -/
  vars : List VariableId
  constant : Bool
  /-- Does the cell hold the address of memory? -/
  complex : Bool
deriving DecidableEq, Inhabited

/-- An edge to another cell of the system. -/
structure Edge where
  target : ValueId
  /-- Do changes travel to the target? -/
  sending : Bool
deriving DecidableEq, Inhabited

/-- The cell of a value. -/
structure Cell where
  handle : Handle
  format : Format
  metadata : Metadata
  lifetime : Lifetime
  /-- The instruction that makes the value. -/
  instruction? : Option Nat
  edges : List Edge
deriving DecidableEq, Inhabited

/-- How a join limits what travels between the two systems. -/
inductive JoinMode
  | full
  /-- Nothing travels to the joining system. -/
  | noReceive
  /-- Nothing travels from the joining system. -/
  | noSend
deriving DecidableEq, Inhabited

/-- The modes of a join by name. -/
def JoinMode.words : List (String × JoinMode) :=
  [("default", full), ("no_receive", noReceive), ("no_send", noSend)]

/-- The cells of one function, numbered in the order of their creation. -/
structure Arena where
  cells : Array Cell
deriving Inhabited

namespace Arena

/-- No cells. -/
def empty : Arena := ⟨#[]⟩

/-- The number of cells. -/
def size (a : Arena) : Nat := a.cells.size

/-- Makes a cell for a value. -/
def create (a : Arena) (handle : Handle) (format : Format) : ValueId × Arena :=
  (a.size, ⟨a.cells.push
    { handle
      format
      metadata := ⟨[], handle.isConstant, false⟩
      lifetime := .unused
      instruction? := none
      edges := [] }⟩)

/-- The cell of a value. -/
def cell? (a : Arena) (v : ValueId) : Option Cell := a.cells[v]?

/-- The cell of a value that the caller knows to exist. -/
def cell (a : Arena) (v : ValueId) : Except Fault Cell := Fault.expect .missing (a.cell? v)

/-- Changes one cell. -/
def update (a : Arena) (v : ValueId) (f : Cell → Cell) : Except Fault Arena :=
  if v < a.size then .ok ⟨a.cells.modify v f⟩ else .error (.crash .missing)

/-- The handles of all cells. -/
def handles (a : Arena) : Array Handle := a.cells.map (·.handle)

/-! ## Systems -/

/-- The targets of the edges of a cell. -/
def neighbours (a : Arena) (v : ValueId) : List ValueId :=
  match a.cell? v with
  | some c => c.edges.map (·.target)
  | none => []

/-- Adds the listed cells that are not there yet, keeping the order. -/
def addMissing (members : List ValueId) (more : List ValueId) : List ValueId :=
  more.foldl (fun ms v => if v ∈ ms then ms else ms ++ [v]) members

/-- Grows a list of members by the neighbours of each, from the given place on. -/
def reach (a : Arena) : Nat → Nat → List ValueId → List ValueId
  | 0, _, members => members
  | fuel + 1, i, members =>
    match members[i]? with
    | some v => a.reach fuel (i + 1) (addMissing members (a.neighbours v))
    | none => members

/-- All cells of the system of a value, the value first. -/
def system (a : Arena) (v : ValueId) : List ValueId := a.reach (a.size + 1) 0 [v]

/-- The cells that a change of a value travels to. -/
def receivers (a : Arena) (v : ValueId) : List ValueId :=
  match a.cell? v with
  | some c => (c.edges.filter (·.sending)).map (·.target)
  | none => []

/-- The cells that a change of a value reaches; a forced one reaches the whole system. -/
def audience (a : Arena) (v : ValueId) (force : Bool) : List ValueId :=
  if force then a.system v else v :: a.receivers v

/-- Are the values the same, or is there an edge to the first one? -/
def related (a : Arena) (v w : ValueId) : Except Fault Bool :=
  if v = w then .ok true
  else do return (← a.cell w).edges.any (·.target == v)

/-! ## Changes -/

/-- Changes the listed cells. -/
def updateAll (a : Arena) (vs : List ValueId) (f : Cell → Cell) : Except Fault Arena :=
  vs.foldlM (fun a v => a.update v f) a

/-- Gives a value a new handle. -/
def setHandle (a : Arena) (v : ValueId) (h : Handle) (force : Bool) : Except Fault Arena :=
  a.updateAll (a.audience v force) fun c => { c with handle := h }

/-- Gives a value new metadata. -/
def setMetadata (a : Arena) (v : ValueId) (m : Metadata) (force : Bool) : Except Fault Arena :=
  a.updateAll (a.audience v force) fun c => { c with metadata := m }

/-- Gives a value another format. -/
def setFormat (a : Arena) (v : ValueId) (f : Format) : Except Fault Arena :=
  a.update v fun c => { c with format := f }

/-- Records the instruction that makes a value. -/
def setInstruction (a : Arena) (v : ValueId) (i : Nat) : Except Fault Arena :=
  a.update v fun c => { c with instruction? := some i }

/-- Marks values as needed at a position, with all that their handles refer to. -/
def useAll (position : Int) : Nat → List ValueId → Arena → Except Fault Arena
  | 0, _, _ => .error (.crash .missing)
  | _ + 1, [], a => .ok a
  | fuel + 1, v :: rest, a => do
    let a ← a.update v fun c => { c with lifetime := c.lifetime.extend position }
    let a ← useAll position fuel (← a.cell v).handle.inner a
    let lifetime := (← a.cell v).lifetime
    let a ← a.updateAll (a.receivers v) fun c => { c with lifetime := c.lifetime.union lifetime }
    useAll position fuel rest a

/-- Marks a value as needed at a position, with all that its handle refers to. -/
def useAt (a : Arena) (v : ValueId) (position : Int) : Except Fault Arena :=
  useAll position (3 * a.size + 4) [v] a

/-- Sets the edge from one cell to another. -/
def connect (a : Arena) (v w : ValueId) (sending : Bool) : Except Fault Arena :=
  a.update v fun c =>
    { c with
      edges :=
        if c.edges.any (·.target == w) then
          c.edges.map fun e => if e.target = w then { e with sending } else e
        else c.edges ++ [⟨w, sending⟩] }

/-- Connects each of some cells with each of some others, in both directions. -/
def connectAll (a : Arena) (vs ws : List ValueId) (send receive : Bool) : Except Fault Arena :=
  vs.foldlM (fun a v => ws.foldlM (fun a w =>
    if v = w then .ok a
    else do (← a.connect v w send).connect w v receive) a) a

/-- Joins the system of a child with that of a parent. The parent sends its handle and metadata
through the new edges; its lifetime and its instruction become common. -/
def join (a : Arena) (child parent : ValueId) (mode : JoinMode) : Except Fault Arena := do
  let _ ← a.cell child
  let _ ← a.cell parent
  let a ← a.connectAll (a.system child) (a.system parent) (mode != .noSend) (mode != .noReceive)
  let c ← a.cell parent
  let a ← a.setHandle parent c.handle false
  let a ← a.setMetadata parent c.metadata false
  let c ← a.cell parent
  a.updateAll (a.system parent) fun m =>
    { m with
      lifetime := m.lifetime.union c.lifetime
      instruction? := m.instruction?.orElse fun _ => c.instruction? }

/-! ## Questions about lifetimes and snapshots -/

/-- Is the value needed at the position? -/
def isValid (a : Arena) (v : ValueId) (position : Int) : Except Fault Bool := do
  return (← a.cell v).lifetime.covers position

/-- Is the value not needed after the position? -/
def isExpiring (a : Arena) (v : ValueId) (position : Int) : Except Fault Bool := do
  return !(← a.isValid v (position + 1))

/-- Returns to earlier handles, except for the cells to keep. -/
def restoreHandles (a : Arena) (handles : Array Handle) (keep : ValueId → Bool) : Arena :=
  ⟨a.cells.mapIdx fun i c =>
    match handles[i]? with
    | some h => if keep i then c else { c with handle := h }
    | none => c⟩

end Arena

end Codegen
