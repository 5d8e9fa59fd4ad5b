import Schematron.Loading.Failure

/-!
Schemas over HTTP. A failure of the server is met by trying again, each time after a longer pause; any
other answer is final.
-/

namespace Schematron.Loading

inductive Reply where
  /-- No response came. -/
  | none
  | response (code : Nat) (body : ByteArray)

/-- What a message amounts to: an informational one answers nothing, and `204` has no content. -/
def Reply.ofMessage (code : Nat) (body : ByteArray) : Reply :=
  if code < 200 then .none
  else .response code (if code = 204 then .empty else body)

/-- What is asked of a network. -/
structure Network (m : Type → Type) where
  request (url : String) : m Reply
  /-- Waits for so many milliseconds. -/
  pause (milliseconds : Nat) : m Unit

structure FetchPolicy where
  /-- How often a request may be repeated. -/
  retries : Nat
  /-- The pause before the first repetition, in milliseconds. -/
  firstPause : Nat
  longestPause : Nat
  /-- The most bytes that a schema may have. -/
  sizeLimit : Nat
  deriving DecidableEq, Repr

namespace Fetch

/-- The standard phrase for a status code. -/
def reasons : List (Nat × String) := [
  (100, "Continue"), (101, "Switching Protocols"), (102, "Processing"), (103, "Early Hints"),
  (200, "OK"), (201, "Created"), (202, "Accepted"), (203, "Non Authoritative Information"),
  (204, "No Content"), (205, "Reset Content"), (206, "Partial Content"), (207, "Multi-Status"),
  (208, "Already Reported"), (226, "IM Used"), (300, "Multiple Choices"), (301, "Moved Permanently"),
  (302, "Found"), (303, "See Other"), (304, "Not Modified"), (305, "Use Proxy"),
  (307, "Temporary Redirect"), (308, "Permanent Redirect"), (400, "Bad Request"), (401, "Unauthorized"),
  (402, "Payment Required"), (403, "Forbidden"), (404, "Not Found"), (405, "Method Not Allowed"),
  (406, "Not Acceptable"), (407, "Proxy Authentication Required"), (408, "Request Timeout"),
  (409, "Conflict"), (410, "Gone"), (411, "Length Required"), (412, "Precondition Failed"),
  (413, "Payload Too Large"), (414, "URI Too Long"), (415, "Unsupported Media Type"),
  (416, "Range Not Satisfiable"), (417, "Expectation Failed"), (418, "I'm a teapot"),
  (421, "Misdirected Request"), (422, "Unprocessable Entity"), (423, "Locked"),
  (424, "Failed Dependency"), (425, "Too Early"), (426, "Upgrade Required"),
  (428, "Precondition Required"), (429, "Too Many Requests"), (431, "Request Header Fields Too Large"),
  (451, "Unavailable For Legal Reasons"), (500, "Internal Server Error"), (501, "Not Implemented"),
  (502, "Bad Gateway"), (503, "Service Unavailable"), (504, "Gateway Timeout"),
  (505, "HTTP Version Not Supported"), (506, "Variant Also Negotiates"), (507, "Insufficient Storage"),
  (508, "Loop Detected"), (510, "Not Extended"), (511, "Network Authentication Required")]

def reason (code : Nat) : String := (reasons.lookup code).getD "Unknown"

def isSuccess (code : Nat) : Bool := 200 ≤ code && code < 300

def isServerError (code : Nat) : Bool := 500 ≤ code && code < 600

/-- What a reply means for the request. -/
inductive Verdict where
  | success (body : ByteArray)
  /-- To be tried again. -/
  | again (e : Failure)
  | final (e : Failure)

def judge (url : String) : Reply → Verdict
  | .none => .again .unanswered
  | .response code body =>
    if isSuccess code then .success body
    else if isServerError code then .again (.status code url (reason code))
    else .final (.status code url (reason code))

/-- The largest number of milliseconds that can be counted. -/
def largestCount : Nat := Nat.pow 2 64 - 1

/-- What is too large to be counted is the largest count. -/
def saturated (n : Nat) : Nat := min n largestCount

/-- The pause after `n` repetitions: it doubles each time, up to the longest. -/
def pauseAfter (p : FetchPolicy) (n : Nat) : Nat :=
  min (saturated (p.firstPause * saturated (Nat.pow 2 n))) p.longestPause

/-- Requests until an answer is final; `left` more repetitions are allowed after `done`. -/
def attempts {m : Type → Type} [Monad m] (net : Network m) (p : FetchPolicy) (url : String) (done : Nat) :
    (left : Nat) → m (Except Failure ByteArray)
  | 0 => do
    match judge url (← net.request url) with
    | .success body => return .ok body
    | .again e | .final e => return .error e
  | left + 1 => do
    match judge url (← net.request url) with
    | .success body => return .ok body
    | .final e => return .error e
    | .again _ =>
      net.pause (pauseAfter p done)
      attempts net p url (done + 1) left

/-- The text of a body, if it is not too long. -/
def textOf (p : FetchPolicy) (url : String) (body : ByteArray) : Except Failure String :=
  if p.sizeLimit < body.size then
    .error (.status 413 url ("schema exceeds " ++ toString p.sizeLimit ++ " bytes"))
  else
    match String.fromUTF8? body with
    | some text => .ok text
    | none => .error (.status 200 url "schema body is not valid UTF-8")

end Fetch

/-- The text of the schema at a URL. -/
def fetch {m : Type → Type} [Monad m] (net : Network m) (p : FetchPolicy) (url : String) :
    m (Except Failure String) := do
  return (← Fetch.attempts net p url 0 p.retries) >>= Fetch.textOf p url

end Schematron.Loading
