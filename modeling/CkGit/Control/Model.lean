import CkGit.Base.Checks
import CkGit.Base.Utf8
import CkGit.Ci.Records

/-!
The three places that read a control operation: the SSH forced command
(src/common/ssh_command.cpp), the operation table and the daemon's request line
(src/common/control_rpc.cpp), and the request line the forwarding client builds
(forwardControlRpc, src/common/control_transport_posix.cpp). The socket itself
is not modelled.
-/
namespace CkGit.Control
open CkGit.Base CkGit.Ci

def quote : UInt8 := '\''.toUInt8

def kMaximumControlArguments : Nat := 4
def kMaximumControlRequestBytes : Nat := 768
def kMaximumReportedPathBytes : Nat := 256

inductive ArgumentKind where
  | project
  | branch
  | checkoutPath
  | ciRunId
  | stepIndex
  | byteOffset
  deriving DecidableEq, Repr

structure OperationGrammar where
  name : Bytes
  arguments : List ArgumentKind
  deriving DecidableEq, Repr

def kOperations : List OperationGrammar :=
  [⟨ascii "ping", []⟩, ⟨ascii "version", []⟩, ⟨ascii "versions", []⟩,
    ⟨ascii "list-projects", []⟩, ⟨ascii "checkouts", []⟩, ⟨ascii "ci-overview", []⟩,
    ⟨ascii "refs", [.project]⟩, ⟨ascii "refresh", [.project]⟩,
    ⟨ascii "forget-checkout", [.project]⟩, ⟨ascii "releases", [.project]⟩,
    ⟨ascii "ci-status", [.project]⟩, ⟨ascii "default-branch", [.project]⟩,
    ⟨ascii "create", [.project, .branch]⟩, ⟨ascii "set-default-branch", [.project, .branch]⟩,
    ⟨ascii "register", [.project, .checkoutPath]⟩,
    ⟨ascii "replace-checkout", [.project, .checkoutPath]⟩,
    ⟨ascii "ci-run", [.project, .ciRunId]⟩, ⟨ascii "ci-cancel", [.project, .ciRunId]⟩,
    ⟨ascii "ci-placement", [.project, .ciRunId]⟩, ⟨ascii "ci-execution", [.project, .ciRunId]⟩,
    ⟨ascii "ci-jobs", [.project, .ciRunId]⟩,
    ⟨ascii "ci-log", [.project, .ciRunId, .stepIndex, .byteOffset]⟩]

def isCanonicalDecimal (value : Bytes) (maximum_digits : Nat) : Bool :=
  !value.isEmpty && value.length ≤ maximum_digits
    && (value.length == 1 || value.head? != some '0'.toUInt8) && value.all isDigit

def isSafeReportedPath (path : Bytes) : Bool :=
  !path.isEmpty && path.length ≤ kMaximumReportedPathBytes && isValidUtf8 path
    && path.all fun character => !isControl character

def decodeCheckoutPath (token : Bytes) : Option Bytes :=
  if token.isEmpty ∨ token.length > kMaximumReportedPathBytes * 2 ∨ token.length % 2 ≠ 0 then none
  else (hexPairs token).filter isSafeReportedPath

def isValidCheckoutPathToken (token : Bytes) : Bool := (decodeCheckoutPath token).isSome

def isValidArgument (kind : ArgumentKind) (value : Bytes) : Bool :=
  match kind with
  | .project => isValidProjectName value
  | .branch => isValidBranchName value
  | .checkoutPath => isValidCheckoutPathToken value
  | .ciRunId => isValidCiId value
  | .stepIndex =>
    isCanonicalDecimal value 4
      && (parseDecimal (2 ^ 64 - 1) value).any fun step => step ≤ kMaximumCiSteps
  | .byteOffset => isCanonicalDecimal value 20 && (parseDecimal (2 ^ 64 - 1) value).isSome

def isValidControlOperation (operation : Bytes) (arguments : List Bytes) : Bool :=
  match kOperations.find? fun entry => entry.name == operation with
  | none => false
  | some grammar =>
    arguments.length == grammar.arguments.length
      && (grammar.arguments.zip arguments).all fun (kind, value) => isValidArgument kind value

structure Token where
  value : Bytes
  quoted : Bool := false
  deriving DecidableEq, Repr

def kMaximumCommandTokens : Nat := 3 + kMaximumControlArguments

def allowedBareTokenCharacter (character : UInt8) : Bool :=
  isAlnum character || character == '-'.toUInt8 || character == '_'.toUInt8
    || character == '.'.toUInt8

/-- The spaces before a token that is not the first. -/
def skipSpaces (command : Bytes) : Except String Bytes := do
  rejectIf (command.head? ≠ some space) "command uses invalid whitespace or token syntax"
  let rest := command.dropWhile (· == space)
  rejectIf rest.isEmpty "command has trailing whitespace"
  return rest

/-- A token after its opening quote. -/
def quotedToken (rest : Bytes) : Except String (Token × Bytes) := do
  let body := rest.takeWhile (· != quote)
  let after := rest.dropWhile (· != quote)
  rejectIf (body.any isControl) "quoted token contains a control character"
  rejectIf (after.isEmpty ∨ body.isEmpty) "quoted token is malformed"
  let after := after.drop 1
  rejectIf (¬ after.isEmpty ∧ after.head? ≠ some space)
    "quoted token must end at a token boundary"
  return ({ value := body, quoted := true }, after)

def bareToken (command : Bytes) : Except String (Token × Bytes) := do
  let word := command.takeWhile (· != space)
  rejectIf (word.any fun character => !allowedBareTokenCharacter character)
    "command contains an unsupported character"
  rejectIf word.isEmpty "command contains an empty token"
  return ({ value := word }, command.dropWhile (· != space))

def readToken (command : Bytes) : Except String (Token × Bytes) :=
  if command.head? = some quote then quotedToken (command.drop 1) else bareToken command

/-- The tokens after `held` others. Every token takes at least one byte, so `fuel` bytes
are never exhausted. -/
def tokensFrom (fuel : Nat) (held : Nat) (command : Bytes) : Except String (List Token) :=
  if command.isEmpty then .ok []
  else match fuel with
  | 0 => .error "command uses invalid whitespace or token syntax"
  | fuel + 1 => do
    let start ← if held = 0 then .ok command else skipSpaces command
    let (token, rest) ← readToken start
    rejectIf (held + 1 > kMaximumCommandTokens) "command has too many arguments"
    return token :: (← tokensFrom fuel (held + 1) rest)

def tokenize (command : Bytes) : Except String (List Token) := do
  rejectIf (command.isEmpty ∨ command.length > 1024) "command is empty or exceeds 1024 bytes"
  tokensFrom command.length 0 command

inductive SshCommand where
  | uploadPack (project_name : Bytes)
  | receivePack (project_name : Bytes)
  | rpc (operation : Bytes) (arguments : List Bytes)
  deriving DecidableEq, Repr

def projectFromRepositoryArgument (token : Token) : Except String Bytes := do
  let suffix := ascii ".git"
  rejectIf (¬ token.quoted ∨ token.value.length ≤ suffix.length ∨ ¬ suffix.isSuffixOf token.value)
    "Git service requires one quoted project.git argument"
  let project := token.value.take (token.value.length - suffix.length)
  let project := if (ascii "./-").isPrefixOf project then project.drop 2 else project
  rejectIf (¬ isValidProjectName project) "repository argument is not a valid project"
  return project

def rpcCommand (version operation : Token) (arguments : List Token) : Except String SshCommand := do
  rejectIf (version.quoted ∨ version.value ≠ ascii "1") "unsupported ckgit-rpc protocol version"
  rejectIf ((operation :: arguments).any (·.quoted)) "ckgit-rpc operations take only unquoted tokens"
  let values := arguments.map (·.value)
  rejectIf (¬ isValidControlOperation operation.value values)
    "command is not an allowed ckgit-rpc operation"
  return .rpc operation.value values

def parseSshOriginalCommand (command : Bytes) : Except String SshCommand := do
  let tokens ← tokenize command
  match tokens with
  | [service, repository] =>
    if service.value = ascii "git-upload-pack" then
      (projectFromRepositoryArgument repository).map .uploadPack
    else if service.value = ascii "git-receive-pack" then
      (projectFromRepositoryArgument repository).map .receivePack
    else .error "command is not an allowed Git or ckgit-rpc operation"
  | program :: version :: operation :: arguments =>
    if program.value = ascii "ckgit-rpc" ∧ ¬ program.quoted then
      rpcCommand version operation arguments
    else .error "command is not an allowed Git or ckgit-rpc operation"
  | _ => .error "command is not an allowed Git or ckgit-rpc operation"

structure ControlRequest where
  client_id : Bytes
  operation : Bytes
  arguments : List Bytes
  deriving DecidableEq, Repr

def kPrefix : Bytes := ascii "CKGIT-CONTROL/1 "

/-- The line forwardControlRpc sends. -/
def requestLine (client_id operation : Bytes) (arguments : List Bytes) : Bytes :=
  kPrefix ++ client_id ++ [space] ++ operation ++ arguments.flatMap (fun argument => space :: argument)
    ++ [newline]

/-- The line forwardControlRpc sends, unless it refuses the request. -/
def forwardedLine (client_id operation : Bytes) (arguments : List Bytes) : Except String Bytes := do
  rejectIf (¬ (isValidClientId client_id ∧ isValidControlOperation operation arguments))
    "invalid control operation or argument"
  let request := requestLine client_id operation arguments
  rejectIf (request.length > kMaximumControlRequestBytes) "control request exceeds its size limit"
  return request

/-- The tokens between single spaces: none empty, and no more than the longest request has. -/
def requestTokens (rest : Bytes) : Option (List Bytes) :=
  let tokens := rest.splitOn space
  if tokens.contains [] ∨ tokens.length > 2 + kMaximumControlArguments then none else some tokens

def parseControlRequest (line : Bytes) : Option ControlRequest :=
  let content := line.dropLast
  if line.isEmpty ∨ line.length > kMaximumControlRequestBytes ∨ line.getLast? ≠ some newline
      ∨ content.contains newline ∨ content.any (fun character => character < 0x20 || 0x7e < character)
      ∨ ¬ kPrefix.isPrefixOf content then none
  else match requestTokens (content.drop kPrefix.length) with
  | some (client_id :: operation :: arguments) =>
    if isValidClientId client_id ∧ isValidControlOperation operation arguments then
      some { client_id, operation, arguments }
    else none
  | _ => none

end CkGit.Control
