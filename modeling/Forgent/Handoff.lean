import Forgent.StatusFsm

/-!
# Calls between roles

The holder of an item calls another role.  `evaluateHandoff` says whether the domain's graph of roles has
the edge at the item's step, and whether another call fits on the stack.  An asynchronous call hands the item
over; its return gives it back.  Which calls are open is not stored: `openCallStack` reads it off the thread
of the item, where a call pushes a frame and a return pops one.
-/

namespace Forgent

open Json

/-- An event as an operation of the store hands it to its transaction. -/
structure Draft where
  eventType : String
  payload : Fields

namespace Handoff

open WorkItem

/-! ### Whether a call is legal -/

section

variable (roleGraph : Option RoleGraph) (step : Option String) (fromRole toRole reason : Option Json)

def legalCallEdges : List CallEdge :=
  ((roleGraph.bind fun graph => graph.edges[step.getD "undefined"]?).getD []).filter fun edge =>
    same (some (.str edge.fromRole)) fromRole

structure RefusedCall where
  refusal : String
  legalEdges : List CallEdge

/-- `typeof cap === 'number' && depth >= cap`. -/
def isFull (depth : ℕ) : Bool := (roleGraph.bind RoleGraph.callstackCap).any fun cap => cap ≤ depth

def evaluateHandoff (n : Arithmetic) (openCallDepth openSyncDepth : ℕ) : Except RefusedCall CallEdge :=
  let legalEdges := legalCallEdges roleGraph step fromRole
  let atStep := " at step \"" ++ step.getD "undefined" ++ "\""
  let cap := toString (((roleGraph.bind RoleGraph.callstackCap)).getD 0)
  if legalEdges.isEmpty then
    .error ⟨if roleGraph.isSome then "no legal call edges for role \"" ++ key n fromRole ++ "\"" ++ atStep
      else "domain declares no roleGraph -- handoff is not available", []⟩
  else
    match legalEdges.find? fun edge =>
        same (some (.str edge.toRole)) toRole && same (some (.str edge.reason)) reason with
    | none => .error ⟨"no legal edge from \"" ++ key n fromRole ++ "\" to \"" ++ key n toRole ++ "\" with reason \"" ++
        key n reason ++ "\"" ++ atStep, legalEdges⟩
    | some edge =>
      if edge.mode = "async" && isFull roleGraph openCallDepth then
        .error ⟨"callstack cap (" ++ cap ++ ") reached -- cannot open another async call on this thread", legalEdges⟩
      else if edge.mode = "sync" && isFull roleGraph openSyncDepth then
        .error ⟨"callstack cap (" ++ cap ++ ") reached -- cannot open another nested sync call on this thread",
          legalEdges⟩
      else .ok edge

end

def edgeJson (edge : CallEdge) : Json :=
  .obj [("from", .str edge.fromRole), ("to", .str edge.toRole), ("reason", .str edge.reason), ("mode", .str edge.mode)]

/-! ### The open calls -/

/-- What an entry of the thread does to the stack. -/
def pushOrPop (stack : List Fields) (entry : Fields) : List Fields :=
  if !same entry["kind"]? (some (.str "handoff")) then stack
  else if truthy entry["returning"]? then stack.dropLast
  else stack ++ [entry]

/-- The calls that did not return yet; the one that was opened last comes last. -/
def openCallStack (thread : List Fields) : List Fields := thread.foldl pushOrPop []

/-- The open calls of an item. -/
def openCalls (view : View) (id : String) : List Fields := openCallStack (view.callThreads.getD id [])

section

variable (σ : StoreHost) (view : View) (writer : Json) (id : String)

def requireWork : Except Refusal Fields :=
  match view.work[id]? with
  | some work => .ok work
  | none => .error ⟨.validation, "work \"" ++ id ++ "\" not found."⟩

/-- `callEvent`: the event of a call from the holder of the item. -/
def callEvent (args : Fields) (openSyncDepth : ℕ) : Except Refusal Draft := do
  let work ← requireWork view id
  let roleGraph := StoreHost.roleGraphFor (σ.policy work["domain"]?)
  let fromRole := orElse work["holder"]? ((roleGraph.bind RoleGraph.defaultRole).map .str)
  let toRole := args["toRole"]?
  let reason := args["reason"]?
  match evaluateHandoff roleGraph (σ.effectiveStep work) fromRole toRole reason σ.arithmetic
      (openCalls view id).length openSyncDepth with
  | .error refused => .error ⟨.validation, "handoff refused: " ++ refused.refusal ++ " -- legal edges: " ++
      stringify σ.arithmetic (.arr (refused.legalEdges.map edgeJson))⟩
  | .ok edge =>
    if edge.mode = "async" then
      return ⟨"work.handoff", record [("id", some (.str id)), ("from", fromRole), ("to", toRole), ("reason", reason),
        ("mode", some (.str "async")), ("note", args["note"]?), ("writer", some writer)]⟩
    else
      return ⟨"work.call-summary", record [("id", some (.str id)), ("calleeRole", toRole), ("reason", reason),
        ("outcome", args["outcome"]?), ("writer", some writer)]⟩

/-- `recordCallReturn`: the event that closes the call that was opened last. -/
def returnEvent (note : Option Json) : Except Refusal Draft := do
  let work ← requireWork view id
  let missing : Refusal := ⟨.validation, "work \"" ++ id ++ "\" has no open call for its current holder to return from."⟩
  match (openCalls view id).getLast? with
  | none => .error missing
  | some openCall =>
    refuseUnless (same openCall["to"]? work["holder"]?) missing
    return ⟨"work.handoff", record [("id", some (.str id)), ("from", work["holder"]?), ("to", openCall["from"]?),
      ("reason", openCall["reason"]?), ("mode", some (.str "async")), ("returning", some (.bool true)),
      ("note", note), ("writer", some writer)]⟩

end

end Handoff

end Forgent
