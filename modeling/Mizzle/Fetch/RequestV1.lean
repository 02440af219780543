import Mizzle.Fetch.Perform
import Mizzle.Proto.FetchLines

/-!
# Incremental fetches over protocol v1

git sends a v1 request in two sections: the wants, with the lines about depth and filter, up to a
flush packet, and then the haves and `done`. `read_fetch_args_v1` reads haves in the first section
only; of the second it looks at one packet, to see whether it is `done`. So a client that has
anything is taken for one that has nothing and is not done (`v1_haves_iff`).
-/

namespace Mizzle.Fetch

open Lib Pack

/-- The lines between the wants and the flush packet. -/
inductive OptionLine where
  | shallow (oid : ObjectId)
  | deepen (depth : Nat)
  | filter (spec : String)

def OptionLine.line : OptionLine → Bytes
  | .shallow oid => utf8 "shallow " ++ oid.toHex
  | .deepen depth => utf8 "deepen " ++ decimal depth
  | .filter spec => utf8 "filter " ++ utf8 spec

/-- What the line asks for; of `shallow` lines nothing is read. -/
def OptionLine.arg? : OptionLine → Option ArgLine
  | .shallow _ => none
  | .deepen depth => some (.deepen (UInt32.ofNat depth))
  | .filter spec => some (.filter spec)

/-- A request; the first want has the capabilities. -/
structure V1Request where
  first : ObjectId
  caps : Bytes
  wants : List ObjectId
  options : List OptionLine
  haves : List ObjectId

namespace V1Request

/-- The lines of the first section. -/
def lines (r : V1Request) : List Bytes :=
  ((ArgLine.want r.first).text ++ 32 :: r.caps) ::
    ((r.wants.map fun oid => (ArgLine.want oid).text) ++ r.options.map OptionLine.line)

/-- What these lines ask for. -/
def args (r : V1Request) : List ArgLine :=
  .want r.first :: (r.wants.map .want ++ r.options.filterMap OptionLine.arg?)

/-- The packets in the layout of git. -/
def packets (r : V1Request) : List PacketLine :=
  (r.lines.map (· ++ [10])).map .data ++
    .flush :: ((r.haves.map fun oid => .data ((ArgLine.haves oid).text ++ [10])) ++ [.data (utf8 "done" ++ [10])])

/-- Every depth is one that the server takes. -/
def DepthsValid (r : V1Request) : Prop :=
  ∀ depth, .deepen depth ∈ r.options → 0 < depth ∧ depth < 2 ^ 32

end V1Request

/-! ### The first section -/

variable {limits : ProtocolLimits} {args : FetchArgs}

theorem readLineV1_firstLine {oid : ObjectId} (hroom : Room limits args (.want oid))
    (caps : Bytes) :
    readLineV1 limits args ((ArgLine.want oid).text ++ 32 :: caps) =
      .ok ((caps.splitOn 32).foldl readCapability ((ArgLine.want oid).apply args)) := by
  rw [ArgLine.text, List.append_assoc, readLineV1_want, cut_append (space_notMem_toHex oid)]
  exact congrArg (Except.map _) (pushWant_toHex hroom)

theorem readLineV1_deepen (args : FetchArgs) (depth : Nat) :
    readLineV1 limits args (OptionLine.deepen depth).line =
      match parseU32 (decimal depth) with
      | none => .error .invalidDeepen
      | some n => if n = 0 then .error .deepenZero else .ok { args with deepen := some n } := by
  have hline : readLineV1 limits args (OptionLine.deepen depth).line = setDeepen args (decimal depth) := rfl
  rw [hline, setDeepen, parseText, decimal, fromUtf8_utf8]
  rfl

theorem readLineV1_deepen_invalid {depth : Nat} (h : ¬(0 < depth ∧ depth < 2 ^ 32)) :
    ∃ e, ∀ args, readLineV1 limits args (OptionLine.deepen depth).line = .error e := by
  rcases Nat.eq_zero_or_pos depth with rfl | hpos
  · exact ⟨.deepenZero, fun args => rfl⟩
  · refine ⟨.invalidDeepen, fun args => ?_⟩
    rw [readLineV1_deepen, parseU32_decimal, if_neg fun hlt => h ⟨hpos, hlt⟩]

theorem readLineV1_option {option : OptionLine}
    (hdepth : ∀ depth, option = .deepen depth → 0 < depth ∧ depth < 2 ^ 32) :
    readLineV1 limits args option.line = .ok (option.arg?.toList.foldl ArgLine.apply args) := by
  cases option with
  | shallow oid => rfl
  | filter spec => exact @readLineV1_text limits args (.filter spec) rfl trivial
  | deepen depth =>
    obtain ⟨hpos, hlt⟩ := hdepth depth rfl
    have hnat : (UInt32.ofNat depth).toNat = depth := UInt32.toNat_ofNat_of_lt' hlt
    have hroom : Room limits args (.deepen (UInt32.ofNat depth)) := fun heq => by
      rw [heq] at hnat
      exact hpos.ne hnat
    have hread := readLineV1_text rfl hroom
    rwa [ArgLine.text, hnat] at hread

theorem foldlM_options {options : List OptionLine}
    (hdepth : ∀ depth, .deepen depth ∈ options → 0 < depth ∧ depth < 2 ^ 32) :
    (options.map OptionLine.line).foldlM (readLineV1 limits) args =
      .ok ((options.filterMap OptionLine.arg?).foldl ArgLine.apply args) := by
  induction options generalizing args with
  | nil => rfl
  | cons option options ih =>
    have hfirst := @readLineV1_option limits args option fun depth heq => hdepth depth (heq ▸ List.mem_cons_self)
    rw [List.map_cons, List.foldlM_cons, hfirst]
    refine (ih fun depth hmem => hdepth depth (List.mem_cons_of_mem _ hmem)).trans ?_
    cases harg : option.arg? <;> simp [harg]

theorem want_args (r : V1Request) : r.args.filterMap ArgLine.want? = r.first :: r.wants := by
  have hnone : ∀ option : OptionLine, option.arg?.bind ArgLine.want? = none := fun option => by cases option <;> rfl
  simp [V1Request.args, List.filterMap_append, List.filterMap_map, List.filterMap_filterMap, hnone, ArgLine.want?,
    Function.comp_def]

theorem mem_args {r : V1Request} {line : ArgLine} (h : line ∈ r.args) :
    line.haves? = none ∧ ∀ f, line ≠ .flag f := by
  rcases List.mem_cons.mp h with rfl | h
  · exact ⟨rfl, nofun⟩
  · rcases List.mem_append.mp h with h | h
    · obtain ⟨oid, -, rfl⟩ := List.mem_map.mp h
      exact ⟨rfl, nofun⟩
    · obtain ⟨option, -, harg⟩ := List.mem_filterMap.mp h
      cases option with
      | shallow oid => cases harg
      | deepen depth | filter spec =>
        cases harg
        exact ⟨rfl, nofun⟩

theorem foldlM_lines {r : V1Request} (hwants : r.wants.length + 1 ≤ limits.maxWants)
    (hdepth : r.DepthsValid) :
    r.lines.foldlM (readLineV1 limits) {} =
      .ok ((r.caps.splitOn 32).foldl readCapability (r.args.foldl ArgLine.apply {})) := by
  have hroom : Room limits {} (.want r.first) := (Nat.le_add_left _ _).trans hwants
  have hfits : Fits limits ((ArgLine.want r.first).apply {}) (r.wants.map .want) := by
    refine ⟨?_, ?_, ?_, ?_⟩ <;> simp [ArgLine.apply, ArgLine.want?, ArgLine.haves?,
      ArgLine.wantRef?, List.filterMap_map,
      Function.comp_def, Nat.add_comm 1, hwants]
  have hmore := @foldlM_text limits _ (fun args line => readLineV1 limits args line.text) _ (fun args line hline =>
    readLineV1_text (by obtain ⟨oid, -, rfl⟩ := List.mem_map.mp hline; rfl))
    ((sameRequest_foldl (r.caps.splitOn 32) _).fits hfits)
  rw [V1Request.lines, List.foldlM_cons, readLineV1_firstLine hroom]
  refine Eq.trans (List.foldlM_append ..) ?_
  rw [List.foldlM_map] at hmore ⊢
  rw [hmore]
  refine (foldlM_options hdepth).trans ?_
  rw [← List.foldl_append, foldl_apply_capabilities]
  rfl

theorem readFetchArgsV1_eq (limits : ProtocolLimits) (r : V1Request) :
    readFetchArgsV1 limits r.packets = (r.lines.foldlM (readLineV1 limits) {}).map (readDone ·
      ((r.haves.map fun oid => .data ((ArgLine.haves oid).text ++ [10])) ++ [.data (utf8 "done" ++ [10])])) := by
  rw [readFetchArgsV1, V1Request.packets, readArgsV1_lines, List.foldlM_map]
  simp only [Receive.stripNewline_append]
  cases r.lines.foldlM (readLineV1 limits) {} with
  | error e => rfl
  | ok args => rfl

theorem readFetchArgsV1_packets {r : V1Request} (hwants : r.wants.length + 1 ≤ limits.maxWants)
    (hdepth : r.DepthsValid) :
    ∃ args, readFetchArgsV1 limits r.packets = .ok args ∧ args.want = r.first :: r.wants ∧
      args.haves = [] ∧
      (args.done = true ↔ r.haves = []) := by
  have hread := readFetchArgsV1_eq limits r
  rw [foldlM_lines hwants hdepth] at hread
  have hsame := sameRequest_foldl (r.caps.splitOn 32) (r.args.foldl ArgLine.apply {})
  generalize (r.caps.splitOn 32).foldl readCapability (r.args.foldl ArgLine.apply {}) = args at hread hsame
  have hwant : args.want = r.first :: r.wants := by rw [hsame.want, want_foldl, want_args]; rfl
  have hhaves : args.haves = [] := by
    rw [hsame.haves, haves_foldl, List.filterMap_eq_nil_iff.mpr fun _ hline => (mem_args hline).1]
    rfl
  have hdone : args.done = false := by
    refine (hsame.flag .done (by decide)).trans ((flag_foldl .done r.args {}).trans ?_)
    simpa [FetchArgs.flag] using fun line hline => (mem_args hline).2 .done
  cases hcase : r.haves with
  | nil =>
    rw [hcase] at hread
    exact ⟨_, hread, hwant, hhaves, by simp [readDone, Receive.stripNewline_append]⟩
  | cons oid oids =>
    rw [hcase] at hread
    have hne : (ArgLine.haves oid).text ≠ utf8 "done" := by
      intro heq
      have hhead : some (104 : UInt8) = some 100 := congrArg List.head? heq
      exact absurd hhead (by decide)
    have hkeep : readDone args (((oid :: oids).map fun oid => .data ((ArgLine.haves oid).text ++ [10])) ++
        [.data (utf8 "done" ++ [10])]) = args := by
      rw [List.map_cons, List.cons_append, readDone, Receive.stripNewline_append, if_neg hne]
    rw [Except.map, hkeep] at hread
    exact ⟨args, hread, hwant, hhaves, by simp [hdone]⟩

theorem depthsValid_of_readFetchArgsV1 {r : V1Request}
    (hread : readFetchArgsV1 limits r.packets = .ok args) : r.DepthsValid := by
  intro depth hmem
  by_contra hinvalid
  obtain ⟨e, hrefused⟩ := @readLineV1_deepen_invalid limits depth hinvalid
  have hline : (OptionLine.deepen depth).line ∈ r.lines :=
    List.mem_cons_of_mem _ (List.mem_append_right _ (List.mem_map_of_mem hmem))
  rw [readFetchArgsV1_eq] at hread
  cases hlines : r.lines.foldlM (readLineV1 limits) {} with
  | error e =>
    rw [hlines] at hread
    cases hread
  | ok args₁ => exact foldlM_ne_ok hline hrefused {} args₁ hlines

/-! ### The calls of `build_pack` -/

/-- Every call that the computation makes is as said. -/
def OnlyCalls (P : BuildCall → Prop) {α : Type} (m : FetchM α) : Prop :=
  ∀ log : FetchLog, (∀ call ∈ log.calls, P call) → ∀ call ∈ (m.runFrom log).2.calls, P call

namespace OnlyCalls

variable {P : BuildCall → Prop} {α β : Type} {m : FetchM α} {f : α → FetchM β}

theorem bind (h : OnlyCalls P m) (h' : ∀ a, OnlyCalls P (f a)) : OnlyCalls P (m >>= f) := by
  intro log hlog
  have hm := h log hlog
  rw [runFrom_bind]
  rcases hrun : m.runFrom log with ⟨e | a, log'⟩
  · rw [hrun] at hm
    exact hm
  · rw [hrun] at hm
    exact h' a log' hm

theorem pure (a : α) : OnlyCalls P (Pure.pure a : FetchM α) := fun _ hlog => hlog

theorem lift (x : Except String α) : OnlyCalls P (liftM x : FetchM α) := by
  cases x with
  | error e => exact fun _ hlog => hlog
  | ok a => exact pure a

theorem throw (e : String) : OnlyCalls P (MonadExcept.throw e : FetchM α) := fun _ hlog => hlog

theorem packet (p : PacketLine) : OnlyCalls P (writePacket p) := fun _ hlog => hlog

theorem forM {γ : Type} {act : γ → FetchM Unit} (h : ∀ x, OnlyCalls P (act x)) (xs : List γ) :
    OnlyCalls P (xs.forM act) := by
  induction xs with
  | nil => exact pure ()
  | cons x xs ih => exact (h x).bind fun _ => ih

end OnlyCalls

section Calls

variable {P : BuildCall → Prop}

theorem onlyCalls_dataToWrite (before payload after : Bytes) :
    OnlyCalls P (dataToWrite before payload after) := by
  unfold dataToWrite
  split
  · exact .throw _
  · split
    · exact .throw _
    · exact .packet _

theorem onlyCalls_drain (progress : Option (Nat → List Bytes)) (round : Nat) :
    OnlyCalls P (drain progress round) := by
  cases progress with
  | none => exact .pure ()
  | some pending => exact .forM (fun message => onlyCalls_dataToWrite [channelProgress] message []) _

theorem onlyCalls_streamChunks (progress : Option (Nat → List Bytes)) (failure : Option String)
    (round : Nat) (chunks : List Bytes) :
    OnlyCalls P (streamChunks progress failure round chunks) := by
  induction chunks generalizing round with
  | nil =>
    refine (onlyCalls_drain progress round).bind fun _ => ?_
    cases failure with
    | none => exact .pure _
    | some e => exact .throw e
  | cons chunk chunks ih =>
    exact (onlyCalls_drain progress round).bind fun _ =>
      (onlyCalls_dataToWrite [channelData] chunk []).bind fun _ => ih (round + 1)

theorem onlyCalls_sendPack (args : FetchArgs) (output : PackOutput) :
    OnlyCalls P (sendPack args output) :=
  ((onlyCalls_streamChunks _ output.failure 0 output.chunks).bind fun round => onlyCalls_drain _ round).bind
    fun _ => .packet .flush

theorem onlyCalls_callBuildPack {backend : FetchBackend} {haves : List ObjectId}
    (h : ∀ opts, P ⟨args.want, haves, opts⟩) : OnlyCalls P (callBuildPack backend args haves) := by
  refine (OnlyCalls.lift _).bind fun filter => OnlyCalls.bind (fun log hlog call hcall => ?_) fun _ => .lift _
  rcases List.mem_append.mp hcall with hcall | hcall
  · exact hlog call hcall
  · rw [List.mem_singleton.mp hcall]
    exact h _

theorem calls_performFetchV1 {backend : FetchBackend} {known : List Bool}
    (hhas : backend.hasObjects args.haves = .ok known) :
    ∀ call ∈ (performFetchV1 backend args).exec.2.calls, call.haves =
      knownHaves args.haves known := by
  have honly : OnlyCalls (fun call => call.haves = knownHaves args.haves known) (performFetchV1 backend args) := by
    rw [performFetchV1, hhas]
    exact (onlyCalls_callBuildPack fun _ => rfl).bind fun output =>
      (OnlyCalls.forM (fun oid => onlyCalls_dataToWrite [] _ [10]) output.shallow).bind fun _ =>
        (onlyCalls_dataToWrite [] (utf8 "NAK") [10]).bind fun _ => onlyCalls_sendPack args output
  exact honly {} fun call hcall => absurd hcall List.not_mem_nil

end Calls

/-! ### Requests with haves -/

/-- The server has read what the client wants and has, and that it is done, and builds the pack
against the haves it knows. -/
structure ServedV1 (r : V1Request) (args : FetchArgs) : Prop where
  want : args.want = r.first :: r.wants
  haves : args.haves = r.haves
  done : args.done = true
  calls : ∀ (backend : FetchBackend) (known : ObjectId → Bool),
    (∀ oids, backend.hasObjects oids = .ok (oids.map known)) →
    ∀ call ∈ (performFetchV1 backend args).exec.2.calls, call.haves = r.haves.filter known

/-- **A v1 request within the limit is served as it asks exactly if the client has nothing and every
depth in it is one the server takes.** -/
theorem v1_haves_iff {limits : ProtocolLimits} {r : V1Request}
    (hwants : r.wants.length + 1 ≤ limits.maxWants) :
    (∃ args, readFetchArgsV1 limits r.packets = .ok args ∧ ServedV1 r args) ↔ r.haves = [] ∧
      r.DepthsValid := by
  constructor
  · rintro ⟨args, hread, hserved⟩
    have hdepth := depthsValid_of_readFetchArgsV1 hread
    obtain ⟨args', hread', -, -, hdone⟩ := readFetchArgsV1_packets hwants hdepth
    obtain rfl : args = args' := Except.ok.inj (hread.symm.trans hread')
    exact ⟨hdone.mp hserved.done, hdepth⟩
  · rintro ⟨hnone, hdepth⟩
    obtain ⟨args, hread, hwant, hhaves, hdone⟩ := readFetchArgsV1_packets hwants hdepth
    refine ⟨args, hread, hwant, hhaves.trans hnone.symm, hdone.mpr hnone, fun backend known hhas call hcall => ?_⟩
    rw [calls_performFetchV1 (hhas args.haves) call hcall, hhaves, hnone]
    rfl

/-- A clone with depth and filter. -/
def cloneV1 : V1Request :=
  ⟨.fill 1, utf8 " ofs-delta agent=git/2.43.0", [.fill 2], [.deepen 1, .filter "blob:none"], []⟩

theorem v1_haves_iff_cloneV1 :
    cloneV1.wants.length + 1 ≤ ({} : ProtocolLimits).maxWants ∧
    ∃ args, readFetchArgsV1 {} cloneV1.packets = .ok args ∧ ServedV1 cloneV1 args := by
  have hwants : cloneV1.wants.length + 1 ≤ ({} : ProtocolLimits).maxWants := by decide
  refine ⟨hwants, (v1_haves_iff hwants).mpr ⟨rfl, fun depth hmem => ?_⟩⟩
  have hdepth : depth = 1 := by simpa [cloneV1] using hmem
  rw [hdepth]
  decide

/-- Of one want and one have, the have is not read, nor is `done`. -/
theorem v1_haves_dropped :
    readFetchArgsV1 {} (V1Request.packets ⟨.fill 1, utf8 " ofs-delta", [], [], [.fill 2]⟩) =
      .ok { want := [.fill 1], ofsDelta := true } := by
  decide +kernel

end Mizzle.Fetch
