import Forgent.WorkItem

/-!
# The moves of a work item

`transitions` is the table of the moves between statuses.  `transitionWork` decides one move: the item must
still have the status that the caller expects, the table must have the edge, and some edges want a reason, a
question or an answer.  What it returns is the payload of the event.
-/

namespace Forgent

open Json

namespace StatusFsm

open WorkItem

/-- `TRANSITIONS`. -/
def transitions : List (String × String) :=
  [("backlog", "todo"),
    ("todo", "awaiting-approval"),
    ("todo", "blocked"),
    ("doing", "blocked"),
    ("blocked", "todo"),
    ("blocked", "awaiting-approval"),
    ("blocked", "delivered"),
    ("doing", "awaiting-approval"),
    ("doing", "todo"),
    ("doing", "delivered"),
    ("awaiting-approval", "delivered"),
    ("awaiting-approval", "todo"),
    ("awaiting-approval", "blocked"),
    ("delivered", "retrospective"),
    ("retrospective", "cleanup"),
    ("cleanup", "done"),
    ("cleanup", "blocked"),
    ("todo", "awaiting-human"),
    ("doing", "awaiting-human"),
    ("awaiting-human", "todo"),
    ("blocked", "wontfix"),
    ("todo", "wontfix"),
    ("doing", "wontfix"),
    ("awaiting-human", "wontfix")]

/-- The edges that want a reason. -/
def reasonRequired : List (String × String) :=
  [("awaiting-approval", "todo"), ("awaiting-approval", "blocked"), ("cleanup", "blocked")]

/-! ### The template of a question to the owner -/

structure QuestionPart where
  key : String
  title : String
  hint : String

/-- `DECISION_QUESTION_PARTS`. -/
def questionParts : List QuestionPart :=
  [{ key := "happening", title := "Chuyện gì đang xảy ra", hint := "1-2 câu, ngôn ngữ thường" },
    { key := "cause", title := "Nguyên nhân",
      hint := "đã kiểm bằng gì; chưa biết nguyên nhân thì chỉ xin phép điều tra" },
    { key := "options", title := "Các lựa chọn",
      hint := "2-4 lựa chọn, mỗi cái: làm gì, lợi, hại, giá (dòng code, thời gian, tầng bị đụng)" },
    { key := "recommendation", title := "Khuyến nghị", hint := "chọn cái nào, vì sao" },
    { key := "scope", title := "Phạm vi của câu trả lời", hint := "đồng ý thì được làm gì, và không được làm gì" }]

def requiredPartsForStage (stage : Option Json) : List String :=
  if isOneOf ["discovery", "exploring"] stage then ["happening", "cause", "scope"]
  else questionParts.map QuestionPart.key

def describeDecisionQuestion (required : List String) : String :=
  "\n".intercalate ((questionParts.filter fun part => required.contains part.key).map fun part =>
    "## " ++ part.title ++ " — " ++ part.hint)

/-- `checkDecisionQuestion`: the required parts that the question lacks. -/
def checkDecisionQuestion (σ : StoreHost) (ask : String) (required : List String) : List QuestionPart :=
  let missing := σ.missingParts ask required
  questionParts.filter fun part => required.contains part.key && missing.contains part.key

/-- `text.trim()`. -/
def trim (text : String) : String :=
  String.ofList ((text.toList.dropWhile Knowledge.isBlankChar).reverse.dropWhile Knowledge.isBlankChar).reverse

/-! ### One move -/

section

variable (σ : StoreHost)

/-- A text that an edge wants, trimmed. -/
def requiredText (value : Option Json) (message : String) : Except Refusal String :=
  match value with
  | some (.str s) => if isBlank s then .error ⟨.validation, message⟩ else .ok (trim s)
  | _ => .error ⟨.validation, message⟩

/-- A text that is there and not empty. -/
def someText (value : Option Json) (refusal : Refusal) : Except Refusal String :=
  match value with
  | some (.str s) => if s = "" then .error refusal else .ok s
  | _ => .error refusal

def isEdge (edges : List (String × String)) (status : Option Json) (dst : String) : Bool :=
  edges.any fun edge => same status (some (.str edge.1)) && edge.2 = dst

/-- The statuses the table leads to. -/
def targetsOf (status : Option Json) : List String :=
  (transitions.filter fun edge => same status (some (.str edge.1))).map Prod.snd

def requireTransition (id : String) (status : Option Json) (dst : String) : Except Refusal Unit :=
  let src := key σ.arithmetic status
  let remedy :=
    if (targetsOf status).isEmpty then " -- \"" ++ src ++ "\" is a terminal status with no outgoing transitions"
    else " -- valid targets from \"" ++ src ++ "\" are: " ++ ", ".intercalate (targetsOf status)
  refuseUnless (isEdge transitions status dst)
    ⟨.precondition, "transitionWork: no transition from \"" ++ src ++ "\" to \"" ++ dst ++ "\" for work \"" ++ id ++
      "\"." ++ remedy⟩

/-- The question that parks an item; it is checked as it was given, and kept trimmed. -/
def requiredAsk (work : Fields) (id : String) (ask : Option Json) : Except Refusal String := do
  let question ← requiredText ask
    ("transitionWork: \"ask\" is required and must be a non-empty string when moving work \"" ++ id ++
      "\" into awaiting-human.")
  let required := requiredPartsForStage work["workflowStep"]?
  let missing := checkDecisionQuestion σ (key σ.arithmetic ask) required
  demand missing.isEmpty ("transitionWork: \"ask\" for work \"" ++ id ++
    "\" is missing parts of the decision-question template (each needs at least 20 characters): " ++
    ", ".intercalate (missing.map QuestionPart.title) ++ ". Write it as:\n" ++ describeDecisionQuestion required)
  return question

def wanted (edge : Bool) (text : Except Refusal String) : Except Refusal (Option Json) :=
  if edge then text.map fun s => some (.str s) else .ok none

/-- `transitionWork`: the payload of the move. -/
def transitionWork (work : Fields) (dst expectedStatus reason ask answer : Option Json) : Except Refusal Fields := do
  let id ← someText work["id"]? ⟨.precondition, "transitionWork: \"work.id\" must be a non-empty string."⟩
  let dst ← someText dst ⟨.precondition, "transitionWork: \"to\" is required and must be a non-empty string."⟩
  let status := work["status"]?
  let src := key σ.arithmetic status
  refuseUnless (expectedStatus.isNone || same status expectedStatus)
    ⟨.conflict, "transitionWork: expected status \"" ++ key σ.arithmetic expectedStatus ++ "\" for work \"" ++ id ++
      "\" but found \"" ++ src ++ "\" — refusing to overwrite blindly."⟩
  requireTransition σ id status dst
  let reason ← wanted (isEdge reasonRequired status dst) (requiredText reason
    ("transitionWork: \"reason\" is required and must be a non-empty string when moving work \"" ++ id ++
      "\" from \"" ++ src ++ "\" to \"" ++ dst ++ "\"."))
  let ask ← wanted (dst = "awaiting-human") (requiredAsk σ work id ask)
  let answer ← wanted (same status (some (.str "awaiting-human"))) (requiredText answer
    ("transitionWork: \"answer\" is required and must be a non-empty string when resuming work \"" ++ id ++
      "\" from awaiting-human."))
  return record [("id", some (.str id)), ("from", status), ("to", some (.str dst)), ("reason", reason), ("ask", ask),
    ("answer", answer)]

end

end StatusFsm

end Forgent
