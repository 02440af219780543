import Mizzle.Lfs.Pointer

/-!
# The endpoints of Git LFS

`serve_lfs` of `mizzle/src/servers/axum.rs` with the handlers of `mizzle/src/lfs/batch.rs` and
`mizzle/src/lfs/transfer.rs`, up to the point where they turn to the store. What a handler does from
there on is in `Mizzle.Lfs.Server`. The parsers of the JSON bodies are left open.
-/

namespace Mizzle.Lfs.Http

open Lib

/-! ### Requests and answers -/

inductive Operation where
  | download
  | upload
deriving DecidableEq

structure BatchRequestObject where
  oid : LfsOid
  size : UInt64

/-- The names of the transfers a client knows are read by no handler. -/
structure BatchRequest where
  operation : Operation
  objects : List BatchRequestObject
  gitRef : Option String

structure BatchActionDetail where
  href : String
  header : String → Option String
  expiresIn : Option Nat

structure BatchObjectActions where
  download : Option BatchActionDetail
  upload : Option BatchActionDetail
  verify : Option BatchActionDetail

structure BatchObjectError where
  code : Nat
  message : String

structure BatchResponseObject where
  oid : LfsOid
  size : UInt64
  actions : Option BatchObjectActions
  error : Option BatchObjectError

structure BatchResponse where
  transfer : String
  objects : List BatchResponseObject

/-- Times are in nanoseconds. -/
inductive TransferAction where
  | proxy
  | redirect (href : String) (header : List (String × String)) (expiresAt : Option Nat)

/-- What a store says about transfers, without doing them. -/
structure Transfers where
  openRepo : Except String Unit
  downloadAction : LfsOid → UInt64 → Except String TransferAction
  uploadAction : LfsOid → UInt64 → Except String TransferAction

/-- The store on a file system has all transfers pass through the server. -/
def fsLfs : Transfers := ⟨.ok (), fun _ _ => .ok .proxy, fun _ _ => .ok .proxy⟩

/-- The authoriser of a request. -/
structure Access where
  authorizeLfs : Operation → Option String → Except String Unit

structure Bodies where
  batchRequest : Bytes → Except String BatchRequest
  verifyBody : Bytes → Option (LfsOid × UInt64)

/-- A request; headers that are no text count as missing. The body is the whole of it, if it can be
read. -/
structure Request where
  method : String
  host : Option String
  forwardedProto : Option String
  contentLength : Option String
  body : Option Bytes

inductive Response where
  | status (code : Nat)
  | text (code : Nat) (text : String)
  /-- A JSON object with a message. -/
  | message (code : Nat) (message : String)
  | batch (response : BatchResponse)
  /-- The stream of an object, with status 200. -/
  | object (bytes : Bytes)

/-- What a handler turns to the store for. -/
inductive Task where
  | batch (baseUrl : String) (request : BatchRequest)
  | download (oid : LfsOid)
  | upload (oid : LfsOid) (size : UInt64)
  | verify (oid : LfsOid) (size : UInt64)

/-! ### Handlers -/

section Handlers

variable (access : Access) (transfers : Transfers) (bodies : Bodies)

/-- `handle_batch`, up to the loop over the objects. -/
def handleBatch (baseUrl : String) (body : Bytes) : Except Response Task :=
  match bodies.batchRequest body with
  | .error e => .error (.message 400 ("invalid request: " ++ e))
  | .ok request =>
    match access.authorizeLfs request.operation request.gitRef with
    | .error reason => .error (.message 403 reason)
    | .ok () =>
      match transfers.openRepo with
      | .error e => .error (.message 500 ("failed to open LFS store: " ++ e))
      | .ok () => .ok (.batch baseUrl request)

/-- `handle_download`. It does not ask the authoriser. -/
def handleDownload (oidHex : String) : Except Response Task :=
  match LfsOid.fromStr ("sha256:" ++ oidHex) with
  | .error _ => .error (.status 400)
  | .ok oid =>
    match transfers.openRepo with
    | .error _ => .error (.status 500)
    | .ok () => .ok (.download oid)

/-- `handle_upload`. The authoriser is asked without a ref. -/
def handleUpload (oidHex : String) (size : UInt64) : Except Response Task :=
  match access.authorizeLfs .upload none with
  | .error _ => .error (.status 403)
  | .ok () =>
    match LfsOid.fromStr ("sha256:" ++ oidHex) with
    | .error _ => .error (.status 400)
    | .ok oid =>
      match transfers.openRepo with
      | .error _ => .error (.status 500)
      | .ok () => .ok (.upload oid size)

/-- `handle_verify`. -/
def handleVerify (oid : LfsOid) (size : UInt64) : Except Response Task :=
  match transfers.openRepo with
  | .error _ => .error (.status 500)
  | .ok () => .ok (.verify oid size)

/-- `axum::body::to_bytes`, with its limit. -/
def toBytes (request : Request) : Option Bytes :=
  request.body.filter fun body => body.length ≤ 1024 * 1024

/-- The length that a request states for its body; zero if it does not. -/
def statedLength (request : Request) : UInt64 :=
  (request.contentLength.bind fun length => parseU64 (utf8 length)).getD 0

/-- What the addresses given to a client begin with. -/
def origin (request : Request) : String :=
  request.forwardedProto.getD "http" ++ "://" ++ request.host.getD "localhost" ++ "/"

def lfsBaseUrl (request : Request) (repoPrefix : List Char) : String :=
  origin request ++ String.ofList repoPrefix ++ ".git/info/lfs"

/-- The endpoints by method and path. -/
def serveEndpoint (repoPrefix lfsPath : List Char) (request : Request) : Except Response Task :=
  let method := request.method.toUpper
  let object := lfsPath.dropPrefix? "objects/".toList
  if method = "POST" ∧ lfsPath = "objects/batch".toList then
    match toBytes request with
    | none => .error (.text 400 "failed to read body")
    | some body => handleBatch access transfers bodies (lfsBaseUrl request repoPrefix) body
  else if method = "GET" ∧ object.isSome then handleDownload transfers (String.ofList (object.getD []))
  else if method = "PUT" ∧ object.isSome then
    handleUpload access transfers (String.ofList (object.getD [])) (statedLength request)
  else if method = "POST" ∧ lfsPath = "objects/verify".toList then
    match toBytes request with
    | none => .error (.text 400 "failed to read body")
    | some body =>
      match bodies.verifyBody body with
      | none => .error (.text 400 "invalid verify body")
      | some (oid, size) => handleVerify transfers oid size
  else .error (.status 501)

/-- `serve_lfs`. -/
def serveLfs (path : String) (request : Request) : Except Response Task :=
  match rsplitOnce ".git/".toList path.toList with
  | none => .error (.text 400 "Path doesn't look like a git URL")
  | some (repoPrefix, servicePath) =>
    match servicePath.dropPrefix? "info/lfs/".toList with
    | none => .error (.text 404 "Not an LFS path")
    | some lfsPath => serveEndpoint access transfers bodies repoPrefix lfsPath request

end Handlers

/-! ### The answers of the batch endpoint -/

section Batch

variable (transfers : Transfers) (now : Nat) (baseUrl : String)

/-- `transfer_action_to_detail`. Of several values for a header the last one counts. -/
def transferActionToDetail (oid : LfsOid) : TransferAction → BatchActionDetail
  | .proxy => ⟨baseUrl ++ "/objects/" ++ oid.toHexString, fun _ => none, none⟩
  | .redirect href header expiresAt =>
    ⟨href, fun name => header.reverse.lookup name,
      expiresAt.bind fun t => if now ≤ t then some ((t - now) / 1000000000) else none⟩

/-- The answer for an object without actions. -/
def failed (object : BatchRequestObject) (code : Nat) (message : String) : BatchResponseObject :=
  ⟨object.oid, object.size, none, some ⟨code, message⟩⟩

/-- One round of the loop over the objects; `stat` is the size that the store has. -/
def respond (operation : Operation) (object : BatchRequestObject)
    (stat : Except String (Option UInt64)) : BatchResponseObject :=
  match stat with
  | .error e => failed object 500 ("stat error: " ++ e)
  | .ok stat =>
    match operation, stat with
    | .download, none => failed object 404 "object not found"
    | .download, some size =>
      match transfers.downloadAction object.oid size with
      | .ok action =>
        ⟨object.oid, object.size, some ⟨some (transferActionToDetail now baseUrl object.oid action), none, none⟩, none⟩
      | .error e => failed object 500 ("download_action error: " ++ e)
    | .upload, some _ => ⟨object.oid, object.size, none, none⟩
    | .upload, none =>
      match transfers.uploadAction object.oid object.size with
      | .ok action =>
        ⟨object.oid, object.size,
          some ⟨none, some (transferActionToDetail now baseUrl object.oid action),
            some ⟨baseUrl ++ "/objects/verify", fun _ => none, none⟩⟩, none⟩
      | .error e => failed object 500 ("upload_action error: " ++ e)

end Batch

def verifyStatus (expected : UInt64) : Except String (Option UInt64) → Nat
  | .ok none => 404
  | .ok (some actual) => if actual = expected then 200 else 422
  | .error _ => 500

def uploadStatus : Except LfsWriteError Unit → Nat
  | .ok () => 200
  | .error (.hashMismatch _ _) | .error (.sizeMismatch _ _) => 422
  | .error .io => 500

/-! ### Which requests get to the store -/

section Cases

variable {access : Access} {transfers : Transfers} {bodies : Bodies} {path : String} {request : Request} {task : Task}

/-- What the authoriser was asked for the task. -/
def Task.Allowed (access : Access) : Task → Prop
  | .batch _ request => access.authorizeLfs request.operation request.gitRef = .ok ()
  | .upload _ _ => access.authorizeLfs .upload none = .ok ()
  | _ => True

/-- **What gets to the store has been allowed**, and an upload has the length that its request
states. -/
theorem serveLfs_eq_ok (h : serveLfs access transfers bodies path request = .ok task) :
    task.Allowed access ∧ ∀ oid size, task = .upload oid size → size = statedLength request := by
  simp only [serveLfs, serveEndpoint, handleBatch, handleDownload, handleUpload, handleVerify] at h
  -- the ways through the handlers that do not end in an answer are four
  repeat' split at h
  all_goals try cases h
  · rename_i hauthorized _ _
    exact ⟨hauthorized, fun oid size hsame => by cases hsame⟩
  · exact ⟨trivial, fun oid size hsame => by cases hsame⟩
  · rename_i hauthorized _ _ _ _ _
    exact ⟨hauthorized, fun oid size hsame => (Task.upload.inj hsame).2.symm⟩
  · exact ⟨trivial, fun oid size hsame => by cases hsame⟩

end Cases

def objectEndpoint (repoPrefix : List Char) (oid : LfsOid) : String :=
  String.ofList (repoPrefix ++ ".git/info/lfs/objects/".toList ++ oid.toHexString.toList)

/-- Everything is allowed. -/
def openAccess : Access := ⟨fun _ _ => .ok ()⟩

/-- The object of two bytes. -/
def pair : LfsOid := paddedHash [1, 2]

end Mizzle.Lfs.Http
