import Mizzle.Fetch.Appends
import Mizzle.Upload.Advertisement

/-!
# Upload-pack sessions

`serve_upload_pack` (over SSH) and the upload-pack handlers of `serve_git_protocol_1` and
`serve_git_protocol_2` (over HTTP), from `mizzle/src/serve.rs`. Over HTTP a request has a connection
of its own; over SSH requests follow one another on one stream, and the parser goes on where the
last request ended.

The backend answers each request from what it holds at that time, so its answers are given request
by request.

A v2 session is the requests of its stream, each answered as if it had been posted on its own, up to
the first one that fails (`session_eq_posts`). A v1 session is the discovery request and one post
(`sessionV1_eq_posts`).
-/

namespace Mizzle.Upload

open Lib Fetch

/-- What the handlers get from the backend while they serve one request. -/
structure UploadBackend where
  openRepo : Except String Unit
  listRefs : Except String RefsSnapshot
  resolveRef : String → Except String (Option ObjectId)
  fetch : FetchBackend

inductive UploadError where
  | command (e : CommandError)
  | listRefs (e : LsRefsError)
  | fetch (e : FetchError)
  /-- An error of the backend or of the writer. -/
  | other (message : String)
deriving DecidableEq

/-- The wants, with what the want-refs resolve to; a ref that does not resolve is passed over. -/
def resolveWantRefs (backend : UploadBackend) (args : FetchArgs) : FetchArgs :=
  { args with want := args.wantRefs.foldl (fun want refname =>
      match backend.resolveRef refname with
      | .ok (some oid) => want ++ [oid]
      | _ => want) args.want }

/-- The result of a computation, and what has been written. -/
abbrev Answer := Except UploadError Unit × FetchLog

def answerOf (run : Except String Unit × FetchLog) : Answer := (run.1.mapError .other, run.2)

/-! ### Over HTTP -/

/-- A `GitResponse` of the upload-pack handlers: the body of a `200` is what the spawned task
writes. -/
inductive PostResponse where
  | internalError (e : UploadError)
  | notFound
  | stream (run : Except String Unit × FetchLog)

/-- `POST /git-upload-pack` of `serve_git_protocol_2`. -/
def uploadPackPost (limits : ProtocolLimits) (backend : UploadBackend) (body : List PacketLine) :
    PostResponse :=
  match readCommand body with
  | .error e => .internalError (.command e)
  | .ok (.listRefs, rest) =>
    match readLsRefsArgs limits rest with
    | .error e => .internalError (.listRefs e)
    | .ok (args, _) =>
      match backend.openRepo with
      | .error e => .internalError (.other e)
      | .ok () =>
        match backend.listRefs with
        | .error e => .internalError (.other e)
        | .ok snapshot => .stream (performListrefs snapshot args).exec
  | .ok (.empty, _) => .notFound
  | .ok (.fetch, rest) =>
    match backend.openRepo with
    | .error e => .internalError (.other e)
    | .ok () =>
      match readFetchArgsRest limits.toProtocolLimits rest with
      | .error e => .internalError (.fetch e)
      | .ok (args, _) => .stream (performFetch backend.fetch (resolveWantRefs backend args)).exec

/-- `GET /info/refs?service=git-upload-pack` of `serve_git_protocol_1`. -/
def uploadPackInfoRefsV1 (autoInit : Bool) (initRepo : Except String Unit)
    (backend : UploadBackend) : PostResponse :=
  match if autoInit then initRepo else .ok () with
  | .error e => .internalError (.other e)
  | .ok () =>
    match backend.openRepo with
    | .error e => .internalError (.other e)
    | .ok () =>
      match backend.listRefs with
      | .error e => .internalError (.other e)
      | .ok snapshot => .stream (infoRefsUploadPackV1Task (asUploadPackV1 snapshot)).exec

/-- `POST /git-upload-pack` of `serve_git_protocol_1`. -/
def uploadPackPostV1 (limits : ProtocolLimits) (backend : UploadBackend) (body : List PacketLine) :
    PostResponse :=
  match backend.openRepo with
  | .error e => .internalError (.other e)
  | .ok () =>
    match readFetchArgsV1 limits.toProtocolLimits body with
    | .error e => .internalError (.fetch e)
    | .ok args => .stream (performFetchV1 backend.fetch (resolveWantRefs backend args)).exec

/-- What the client gets of a response. -/
def PostResponse.answer : PostResponse → Answer
  | .internalError e => (.error e, {})
  | .notFound => (.ok (), {})
  | .stream run => answerOf run

/-! ### Over SSH -/

theorem length_readCommand_lt {packets rest : List PacketLine} {command : Command}
    (h : readCommand packets = .ok (command, rest)) : rest.length < packets.length :=
  framed_readCommand.length_lt (fun _ _ => nofun) h

set_option linter.unusedVariables false in
/-- The loop of `serve_upload_pack`. -/
def serveCommands (limits : ProtocolLimits) (backends : Nat → UploadBackend) (k : Nat)
    (packets : List PacketLine) (log : FetchLog) : Answer :=
  match hcommand : readCommand packets with
  | .error _ => (.ok (), log)
  | .ok (.listRefs, rest) =>
    match hargs : readLsRefsArgs limits rest with
    | .error e => (.error (.listRefs e), log)
    | .ok (args, rest') =>
      match (backends k).listRefs with
      | .error e => (.error (.other e), log)
      | .ok snapshot =>
        match (performListrefs snapshot args).runFrom log with
        | (.error e, log) => (.error (.other e), log)
        | (.ok (), log) => serveCommands limits backends (k + 1) rest' log
  | .ok (.fetch, rest) =>
    match hargs : readFetchArgsRest limits.toProtocolLimits rest with
    | .error e => (.error (.fetch e), log)
    | .ok (args, rest') =>
      match (performFetch (backends k).fetch (resolveWantRefs (backends k) args)).runFrom log with
      | (.error e, log) => (.error (.other e), log)
      | (.ok (), log) => serveCommands limits backends (k + 1) rest' log
  | .ok (.empty, _) => (.ok (), log)
termination_by packets.length
decreasing_by
  · exact lt_of_le_of_lt ((framed_readLsRefsArgs limits).length_le hargs) (length_readCommand_lt hcommand)
  · exact lt_of_le_of_lt ((framed_readFetchArgsRest limits.toProtocolLimits).length_le hargs)
      (length_readCommand_lt hcommand)

/-- `serve_upload_pack` with version 2, once the repository is open. -/
def serveUploadPackV2 (limits : ProtocolLimits) (backends : Nat → UploadBackend)
    (packets : List PacketLine) : Answer :=
  match capabilityAdvertisementV2.exec with
  | (.error e, log) => (.error (.other e), log)
  | (.ok (), log) => serveCommands limits backends 0 packets log

/-- `serve_upload_pack` with version 1, once the repository is open. -/
def serveUploadPackV1 (limits : ProtocolLimits) (backends : Nat → UploadBackend)
    (packets : List PacketLine) : Answer :=
  match (backends 0).listRefs with
  | .error e => (.error (.other e), {})
  | .ok snapshot =>
    match (uploadPackV1Refs (asUploadPackV1 snapshot)).exec with
    | (.error e, log) => (.error (.other e), log)
    | (.ok (), log) =>
      match readFetchArgsV1 limits.toProtocolLimits packets with
      | .error e => (.error (.fetch e), log)
      | .ok args =>
        answerOf ((performFetchV1 (backends 1).fetch (resolveWantRefs (backends 1) args)).runFrom log)

def serveUploadPack (limits : ProtocolLimits) (autoInit : Bool)
    (initRepo openRepo : Except String Unit) (backends : Nat → UploadBackend) (version : Nat)
    (packets : List PacketLine) : Answer :=
  match if autoInit then initRepo else .ok () with
  | .error e => (.error (.other e), {})
  | .ok () =>
    match openRepo with
    | .error e => (.error (.other e), {})
    | .ok () =>
      if version ≥ 2 then serveUploadPackV2 limits backends packets else serveUploadPackV1 limits backends packets

/-! ### Requests -/

inductive Request where
  | listRefs (args : ListRefsArgs)
  | fetch (args : FetchArgs)
deriving DecidableEq

/-- The arguments that follow a command. -/
def readRequestArgs (limits : ProtocolLimits) :
    Command → Reader PacketLine (Option UploadError) Request
  | .listRefs => Reader.andThen (fun packets => (readLsRefsArgs limits packets).mapError fun e => some (.listRefs e))
    fun args rest => .ok (.listRefs args, rest)
  | .fetch => Reader.andThen (fun packets =>
    (readFetchArgsRest limits.toProtocolLimits packets).mapError fun e => some (.fetch e))
    fun args rest => .ok (.fetch args, rest)
  | .empty => fun _ => .error none

/-- One request of a session. Where there is no command the session ends without an error. -/
def readRequest (limits : ProtocolLimits) : Reader PacketLine (Option UploadError) Request :=
  Reader.andThen (fun packets => (readCommand packets).mapError fun _ => none) (readRequestArgs limits)

theorem framed_readRequest (limits : ProtocolLimits) : Framed (readRequest limits) := by
  refine (framed_readCommand.mapError _).bind fun command => ?_
  cases command with
  | listRefs => exact ((framed_readLsRefsArgs limits).mapError _).map _
  | fetch => exact ((framed_readFetchArgsRest limits.toProtocolLimits).mapError _).map _
  | empty =>
    intro stream a rest
    exact ⟨nofun, fun ⟨_, _, h⟩ => nomatch h⟩

def answerRequest (backend : UploadBackend) : Request → FetchLog → Answer
  | .listRefs args, log =>
    match backend.listRefs with
    | .error e => (.error (.other e), log)
    | .ok snapshot => answerOf ((performListrefs snapshot args).runFrom log)
  | .fetch args, log => answerOf ((performFetch backend.fetch (resolveWantRefs backend args)).runFrom log)

theorem appends_performListrefs (snapshot : RefsSnapshot) (args : ListRefsArgs) :
    Appends (performListrefs snapshot args) := by
  rw [performListrefs_eq]
  exact (Appends.forM appends_text _).bind fun _ => .packet .flush

theorem answerRequest_append (backend : UploadBackend) (request : Request) (log : FetchLog) :
    answerRequest backend request log =
      ((answerRequest backend request {}).1, log ++ (answerRequest backend request {}).2) := by
  cases request with
  | listRefs args =>
    simp only [answerRequest]
    cases backend.listRefs with
    | error e => simp
    | ok snapshot =>
      simp only [answerOf, appends_performListrefs snapshot args log, FetchM.exec]
  | fetch args =>
    simp only [answerRequest, answerOf, appends_performFetch _ _ log, FetchM.exec]

/-- **One turn of the loop.** -/
theorem serveCommands_eq (limits : ProtocolLimits) (backends : Nat → UploadBackend) (k : Nat)
    (packets : List PacketLine) (log : FetchLog) :
    serveCommands limits backends k packets log =
      match readRequest limits packets with
      | .error none => (.ok (), log)
      | .error (some e) => (.error e, log)
      | .ok (request, rest) =>
        match answerRequest (backends k) request log with
        | (.error e, log) => (.error e, log)
        | (.ok (), log) => serveCommands limits backends (k + 1) rest log := by
  rw [serveCommands, readRequest, Reader.andThen]
  cases readCommand packets with
  | error e => rfl
  | ok r =>
    obtain ⟨command, rest⟩ := r
    cases command with
    | empty => rfl
    | listRefs =>
      simp only [Except.mapError, Except.bind, readRequestArgs, Reader.andThen]
      cases readLsRefsArgs limits rest with
      | error e => rfl
      | ok r =>
        obtain ⟨args, rest'⟩ := r
        simp only [answerRequest]
        cases (backends k).listRefs with
        | error e => rfl
        | ok snapshot =>
          simp only [answerOf]
          rcases (performListrefs snapshot args).runFrom log with ⟨_ | _, _⟩ <;> rfl
    | fetch =>
      simp only [Except.mapError, Except.bind, readRequestArgs, Reader.andThen]
      cases readFetchArgsRest limits.toProtocolLimits rest with
      | error e => rfl
      | ok r =>
        obtain ⟨args, rest'⟩ := r
        simp only [answerRequest, answerOf]
        rcases (performFetch (backends k).fetch (resolveWantRefs (backends k) args)).runFrom log with ⟨_ | _, _⟩ <;> rfl

/-- **A request that is posted**, to a repository that opens. -/
theorem answer_uploadPackPost {limits : ProtocolLimits} {backend : UploadBackend}
    (hopen : backend.openRepo = .ok ()) {body rest : List PacketLine} {request : Request}
    (h : readRequest limits body = .ok (request, rest)) :
    (uploadPackPost limits backend body).answer = answerRequest backend request {} := by
  obtain ⟨⟨command, middle⟩, hcommand, hargs⟩ := bind_eq_ok_iff.mp h
  rw [mapError_eq_ok_iff] at hcommand
  rw [uploadPackPost, hcommand]
  cases command with
  | empty => exact nomatch hargs
  | listRefs =>
    obtain ⟨⟨args, rest'⟩, hread, hok⟩ := bind_eq_ok_iff.mp hargs
    rw [mapError_eq_ok_iff] at hread
    obtain ⟨rfl, -⟩ := Prod.mk.inj (Except.ok.inj hok)
    simp only [hread, hopen, answerRequest]
    cases backend.listRefs with
    | error e => rfl
    | ok snapshot => rfl
  | fetch =>
    obtain ⟨⟨args, rest'⟩, hread, hok⟩ := bind_eq_ok_iff.mp hargs
    rw [mapError_eq_ok_iff] at hread
    obtain ⟨rfl, -⟩ := Prod.mk.inj (Except.ok.inj hok)
    simp only [hread, hopen, answerRequest]
    rfl

/-! ### Sessions -/

/-- Answers one after the other, up to the first that fails. -/
def inSequence : List Answer → Answer
  | [] => (.ok (), {})
  | (.error e, log) :: _ => (.error e, log)
  | (.ok (), log) :: answers => ((inSequence answers).1, log ++ (inSequence answers).2)

theorem inSequence_singleton (answer : Answer) : inSequence [answer] = answer := by
  rcases answer with ⟨_ | ⟨⟨⟩⟩, log⟩
  · rfl
  · simp [inSequence]

/-- How a session ends where there is no request: with an error if there is a command whose
arguments are refused. -/
def ending (limits : ProtocolLimits) (tail : List PacketLine) : Answer :=
  match readRequest limits tail with
  | .error (some e) => (.error e, {})
  | _ => (.ok (), {})

/-- The answers to posts of these requests, the first of which is request `k`. -/
def postAnswers (limits : ProtocolLimits) (backends : Nat → UploadBackend) :
    Nat → List (List PacketLine) → List Answer
  | _, [] => []
  | k, request :: requests =>
    (uploadPackPost limits (backends k) request).answer :: postAnswers limits backends (k + 1) requests

theorem serveCommands_tail {limits : ProtocolLimits} {tail : List PacketLine}
    (h : ∀ request rest, readRequest limits tail ≠ .ok (request, rest))
    (backends : Nat → UploadBackend) (k : Nat) (log : FetchLog) :
    serveCommands limits backends k tail log =
      ((ending limits tail).1, log ++ (ending limits tail).2) := by
  rw [serveCommands_eq, ending]
  cases hread : readRequest limits tail with
  | ok r => exact absurd hread (h r.1 r.2)
  | error e =>
    cases e with
    | none => simp
    | some e => simp

theorem serveCommands_requests {limits : ProtocolLimits} {backends : Nat → UploadBackend}
    (hopen : ∀ k, (backends k).openRepo = .ok ()) {requests : List (List PacketLine)}
    (hrequests : ∀ frame ∈ requests, ∃ request, readRequest limits frame = .ok (request, []))
    {tail : List PacketLine} (htail : ∀ request rest, readRequest limits tail ≠ .ok (request, rest))
    (k : Nat) (log : FetchLog) :
    serveCommands limits backends k (requests.flatten ++ tail) log =
      ((inSequence (postAnswers limits backends k requests ++ [ending limits tail])).1,
        log ++ (inSequence (postAnswers limits backends k requests ++ [ending limits tail])).2) := by
  induction requests generalizing k log with
  | nil =>
    rw [List.flatten_nil, List.nil_append, serveCommands_tail htail, postAnswers, List.nil_append, inSequence_singleton]
  | cons frame requests ih =>
    obtain ⟨⟨request, hrequest⟩, hrest⟩ := List.forall_mem_cons.mp hrequests
    have hread := (framed_readRequest limits).append hrequest (requests.flatten ++ tail)
    rw [List.flatten_cons, List.append_assoc, serveCommands_eq, hread, postAnswers, List.cons_append,
      answer_uploadPackPost (hopen k) hrequest]
    simp only [answerRequest_append _ request log]
    rcases hanswer : answerRequest (backends k) request {} with ⟨_ | _, written⟩
    · rfl
    · simp only [ih hrest, inSequence, FetchLog.append_assoc]

/-- The repository is there: it opens, after it has been initialised if that is asked for. -/
structure Opens (autoInit : Bool) (initRepo openRepo : Except String Unit)
    (backends : Nat → UploadBackend) : Prop where
  init : autoInit → initRepo = .ok ()
  session : openRepo = .ok ()
  request : ∀ k, (backends k).openRepo = .ok ()

theorem Opens.serveUploadPack_eq {autoInit : Bool} {initRepo openRepo : Except String Unit}
    {backends : Nat → UploadBackend} (h : Opens autoInit initRepo openRepo backends)
    (limits : ProtocolLimits) (version : Nat) (packets : List PacketLine) :
    serveUploadPack limits autoInit initRepo openRepo backends version packets =
      if version ≥ 2 then serveUploadPackV2 limits backends packets else serveUploadPackV1 limits backends packets := by
  obtain ⟨hinit, rfl, -⟩ := h
  cases autoInit with
  | false => rfl
  | true =>
    obtain rfl := hinit rfl
    rfl

/-- **A session is its requests, each posted on its own.** Whatever the stream is, it is a number of
requests and a tail that holds none; behind the advertisement the session writes the answers to
posts of these requests, one after the other, up to the first that fails, and then ends as the tail
says. -/
theorem session_eq_posts (limits : ProtocolLimits) {autoInit : Bool}
    {initRepo openRepo : Except String Unit} {backends : Nat → UploadBackend}
    (hopens : Opens autoInit initRepo openRepo backends) {version : Nat} (hversion : 2 ≤ version)
    (stream : List PacketLine) :
    ∃ (requests : List (List PacketLine)) (tail : List PacketLine), stream =
      requests.flatten ++ tail ∧
      (∀ frame ∈ requests, ∃ request, readRequest limits frame = .ok (request, [])) ∧
      (∀ request rest, readRequest limits tail ≠ .ok (request, rest)) ∧
      serveUploadPack limits autoInit initRepo openRepo backends version stream =
        inSequence (answerOf capabilityAdvertisementV2.exec ::
          (postAnswers limits backends 0 requests ++ [ending limits tail])) := by
  obtain ⟨requests, tail, rfl, hrequests, htail⟩ := (framed_readRequest limits).exists_frames (fun _ _ => nofun) stream
  refine ⟨requests, tail, rfl, hrequests, htail, ?_⟩
  rw [hopens.serveUploadPack_eq, if_pos hversion, serveUploadPackV2]
  exact serveCommands_requests hopens.request hrequests htail 0 capabilityAdvertisementV2.exec.2

/-- A backend that lists `smallSnapshot` and sends a small pack. -/
def smallUpload : UploadBackend where
  openRepo := .ok ()
  listRefs := .ok smallSnapshot
  resolveRef _ := .ok none
  fetch := smallBackend (smallPack [] [])

theorem opens_smallUpload : Opens true (.ok ()) (.ok ()) fun _ => smallUpload :=
  ⟨fun _ => rfl, rfl, fun _ => rfl⟩

theorem session_eq_posts_smallUpload :
    ∃ (requests : List (List PacketLine)) (tail : List PacketLine),
      [.data (utf8 "command=ls-refs\n"), .delimiter, .flush, .flush] = requests.flatten ++ tail ∧
      (∀ frame ∈ requests, ∃ request, readRequest {} frame = .ok (request, [])) ∧
      (∀ request rest, readRequest {} tail ≠ .ok (request, rest)) ∧
      serveUploadPack {} true (.ok ()) (.ok ()) (fun _ => smallUpload) 2
          [.data (utf8 "command=ls-refs\n"), .delimiter, .flush, .flush] =
        inSequence (answerOf capabilityAdvertisementV2.exec ::
          (postAnswers {} (fun _ => smallUpload) 0 requests ++ [ending {} tail])) :=
  session_eq_posts {} opens_smallUpload le_rfl _

/-! ### Version 1 -/

/-- The answer to the discovery request without the two packets in front. -/
def withoutPreamble (answer : Answer) : Answer :=
  (answer.1, { answer.2 with packets := answer.2.packets.drop 2 })

theorem appends_writeFlushed (lines : List Bytes) : Appends (writeFlushed lines) :=
  (Appends.forM appends_text _).bind fun _ => .packet .flush

theorem withoutPreamble_withPreamble {advertisement : FetchM Unit} (h : Appends advertisement) :
    withoutPreamble (answerOf (withPreamble (utf8 "git-upload-pack") advertisement).exec) =
      answerOf advertisement.exec := by
  have hpreamble : Writes (textToWrite (utf8 "# service=" ++ utf8 "git-upload-pack"))
      [textPacket (utf8 "# service=" ++ utf8 "git-upload-pack")] [] () :=
    writes_text (by decide +kernel) (by decide +kernel)
  have hflush : Writes flushToWrite [.flush] [] () := .packet .flush
  rw [withPreamble, FetchM.exec, runFrom_bind, hpreamble {}]
  simp only [runFrom_bind, hflush _, h _, answerOf, withoutPreamble, FetchLog.append_def]
  simp

/-- **Discovery with version 2** answers what a session begins with. -/
theorem withoutPreamble_infoRefsTask :
    withoutPreamble (answerOf infoRefsTask.exec) = answerOf capabilityAdvertisementV2.exec :=
  withoutPreamble_withPreamble (appends_writeFlushed _)

/-- **A v1 session is the discovery request and one post.** -/
theorem sessionV1_eq_posts (limits : ProtocolLimits) {autoInit : Bool}
    {initRepo openRepo : Except String Unit} {backends : Nat → UploadBackend}
    (hopens : Opens autoInit initRepo openRepo backends) {version : Nat} (hversion : version < 2)
    (stream : List PacketLine) :
    serveUploadPack limits autoInit initRepo openRepo backends version stream =
      inSequence [withoutPreamble (uploadPackInfoRefsV1 autoInit initRepo (backends 0)).answer,
        (uploadPackPostV1 limits (backends 1) stream).answer] := by
  have hinit : (if autoInit then initRepo else .ok ()) = .ok () := by
    split
    · rename_i hauto
      exact hopens.init hauto
    · rfl
  rw [hopens.serveUploadPack_eq, if_neg (Nat.not_le.mpr hversion), serveUploadPackV1, uploadPackInfoRefsV1, hinit,
    uploadPackPostV1, hopens.request 1]
  simp only [hopens.request 0]
  cases (backends 0).listRefs with
  | error e => rfl
  | ok snapshot =>
    have hdiscovery := withoutPreamble_withPreamble
      (appends_writeFlushed (advertisementLines uploadPackCaps (asUploadPackV1 snapshot)))
    simp only [PostResponse.answer, infoRefsUploadPackV1Task, uploadPackV1Refs, hdiscovery]
    rcases (writeFlushed (advertisementLines uploadPackCaps (asUploadPackV1 snapshot))).exec with ⟨e | u, log⟩
    · rfl
    · cases readFetchArgsV1 limits.toProtocolLimits stream with
      | error e => simp [answerOf, inSequence, Except.mapError]
      | ok args => simp only [answerOf, inSequence, inSequence_singleton, Except.mapError,
        appends_performFetchV1 _ _ log]

/-- One want, and `done`. -/
def wantStream : List PacketLine :=
  [.data (utf8 "want " ++ (ObjectId.fill 1).toHex ++ [10]), .flush, .data (utf8 "done\n")]

theorem sessionV1_eq_posts_smallUpload :
    readFetchArgsV1 {} wantStream = .ok { want := [.fill 1], done := true } ∧
    serveUploadPack {} true (.ok ()) (.ok ()) (fun _ => smallUpload) 1 wantStream =
      inSequence [withoutPreamble (uploadPackInfoRefsV1 true (.ok ()) smallUpload).answer,
        (uploadPackPostV1 {} smallUpload wantStream).answer] :=
  ⟨by decide +kernel, sessionV1_eq_posts {} opens_smallUpload (by decide) _⟩

end Mizzle.Upload
