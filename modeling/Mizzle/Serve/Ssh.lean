import Mizzle.Lib.Text

/-!
# The exec string of an SSH session

`parse_git_command` of `mizzle/src/servers/ssh.rs`: the command and the repository path of an exec
request.

The path is quoted for a shell by git, in single quotes. The parser takes quotes off the ends and
one slash off the front, which is less than a shell does in two respects: an argument with two
slashes at its front keeps one (`head_path_iff`), and characters that the quoting writes with a
backslash stay as they were written, while a double quote at the end of a path is lost
(`repoPath_quote_iff`).
-/

namespace Mizzle.Ssh

open Lib

inductive GitCommand where
  | uploadPack
  | receivePack
deriving DecidableEq

/-- The program a client runs. -/
def GitCommand.name : GitCommand → String
  | uploadPack => "git-upload-pack"
  | receivePack => "git-receive-pack"

/-- The argument without surrounding quotes and leading slash. -/
def repoPath (rest : List Char) : List Char :=
  let path := trimMatches (· = '"') (trimMatches (· = '\'') rest)
  match path with
  | '/' :: stripped => stripped
  | _ => path

/-- `parse_git_command`. -/
def parseGitCommand (command : String) : Except String (GitCommand × String) :=
  let command := trim command.toList
  match splitOnce ' ' command with
  | none => .error ("invalid git command: " ++ String.ofList command)
  | some (cmd, rest) =>
    if String.ofList cmd = "git-upload-pack" then .ok (.uploadPack, String.ofList (repoPath rest))
    else if String.ofList cmd = "git-receive-pack" then .ok (.receivePack,
      String.ofList (repoPath rest))
    else .error ("unsupported git command: " ++ String.ofList cmd)

/-! ### What is accepted -/

theorem GitCommand.space_notMem_name (git : GitCommand) : ' ' ∉ git.name.toList := by
  cases git <;> decide

theorem parseGitCommand_eq_ok_iff {command path : String} {git : GitCommand} :
    parseGitCommand command = .ok (git, path) ↔
      ∃ rest, trim command.toList = git.name.toList ++ ' ' :: rest ∧ path =
        String.ofList (repoPath rest) := by
  constructor
  · intro h
    rw [parseGitCommand] at h
    split at h
    · cases h
    · rename_i cmd rest hsplit
      obtain ⟨hcommand, -⟩ := splitOnce_eq_some_iff.mp hsplit
      have hknown : ∀ git' : GitCommand, String.ofList cmd = git'.name →
          trim command.toList = git'.name.toList ++ ' ' :: rest :=
        fun git' hcmd => by rw [← hcmd, String.toList_ofList, hcommand]
      split at h
      · rename_i hcmd
        obtain ⟨rfl, rfl⟩ := Prod.mk.inj (Except.ok.inj h)
        exact ⟨rest, hknown .uploadPack hcmd, rfl⟩
      · split at h
        · rename_i hcmd
          obtain ⟨rfl, rfl⟩ := Prod.mk.inj (Except.ok.inj h)
          exact ⟨rest, hknown .receivePack hcmd, rfl⟩
        · cases h
  · rintro ⟨rest, hcommand, rfl⟩
    rw [parseGitCommand, splitOnce_eq_some_iff.mpr ⟨hcommand, git.space_notMem_name⟩]
    cases git <;> simp [GitCommand.name]

/-! ### Leading slashes -/

theorem repoPath_cases (rest : List Char) :
    trimMatches (· = '"') (trimMatches (· = '\'') rest) = '/' :: repoPath rest ∨
    (repoPath rest).head? ≠ some '/' := by
  rw [repoPath]
  split
  · rename_i hpath
    exact Or.inl hpath
  · rename_i hpath
    refine Or.inr fun hhead => ?_
    obtain ⟨stripped, hstripped⟩ := List.head?_eq_some_iff.mp hhead
    exact hpath stripped hstripped

theorem head_repoPath_iff (rest : List Char) :
    (repoPath rest).head? = some '/' ↔ ['/', '/'] <+: trimMatches (· = '"') (trimMatches (· = '\'') rest) := by
  constructor
  · intro hhead
    obtain ⟨stripped, hstripped⟩ := List.head?_eq_some_iff.mp hhead
    rcases repoPath_cases rest with hpath | hnot
    · rw [hpath, hstripped]
      exact ⟨stripped, rfl⟩
    · exact absurd hhead hnot
  · rintro ⟨tail, htail⟩
    rw [repoPath, ← htail]
    rfl

/-- The argument begins with two slashes: behind white space, a command and a space, and behind
single and then double quotes. -/
def DoubleSlash (command : String) : Prop :=
  ∃ (blanks : List Char) (git : GitCommand) (singles doubles : List Char),
    (∀ c ∈ blanks, isWhitespace c = true) ∧
    (∀ c ∈ singles, c = '\'') ∧ (∀ c ∈ doubles, c = '"') ∧
    blanks ++ (git.name.toList ++ ' ' :: (singles ++ (doubles ++ ['/', '/']))) <+: command.toList

theorem doubleSlash_argument_iff (rest : List Char) :
    ['/', '/'] <+: trimMatches (· = '"') (trimMatches (· = '\'') rest) ↔
      ∃ singles doubles : List Char, (∀ c ∈ singles, c = '\'') ∧ (∀ c ∈ doubles, c = '"') ∧
        singles ++ (doubles ++ ['/', '/']) <+: rest := by
  have hsingles : ∀ doubles : List Char, (∀ c ∈ doubles, c = '"') →
      (doubles ++ ['/', '/'] <+: trimMatches (· = '\'') rest ↔
        ∃ singles : List Char, (∀ c ∈ singles, c = '\'') ∧ singles ++
          (doubles ++ ['/', '/']) <+: rest) := by
    intro doubles hdoubles
    have hfirst : ∃ first, (doubles ++ ['/', '/']).head? = some first ∧
        decide (first = '\'') = false := by
      cases doubles with
      | nil => exact ⟨'/', rfl, rfl⟩
      | cons c doubles => exact ⟨c, rfl, by rw [hdoubles c List.mem_cons_self]; rfl⟩
    obtain ⟨first, hhead, hfirst⟩ := hfirst
    rw [@prefix_trimMatches Char _ _ first '/' hhead hfirst (by simp) rfl]
    simp only [decide_eq_true_eq]
  rw [@prefix_trimMatches Char _ _ '/' '/' rfl rfl rfl rfl]
  simp only [decide_eq_true_eq]
  constructor
  · rintro ⟨doubles, hdoubles, h⟩
    obtain ⟨singles, hs, h⟩ := (hsingles doubles hdoubles).mp h
    exact ⟨singles, doubles, hs, hdoubles, h⟩
  · rintro ⟨singles, doubles, hs, hdoubles, h⟩
    exact ⟨doubles, hdoubles, (hsingles doubles hdoubles).mpr ⟨singles, hs, h⟩⟩

/-- **An accepted path is absolute exactly if the argument begins with two slashes.** -/
theorem head_path_iff {command path : String} {git : GitCommand}
    (h : parseGitCommand command = .ok (git, path)) :
    path.toList.head? = some '/' ↔ DoubleSlash command := by
  obtain ⟨rest, hcommand, rfl⟩ := parseGitCommand_eq_ok_iff.mp h
  have hfront : ∀ (git : GitCommand) (singles doubles : List Char),
      git.name.toList ++ ' ' :: (singles ++ (doubles ++ ['/', '/'])) <+: trim command.toList ↔
        ∃ blanks : List Char,
        (∀ c ∈ blanks, isWhitespace c = true) ∧
        blanks ++ (git.name.toList ++ ' ' :: (singles ++ (doubles ++ ['/', '/']))) <+:
          command.toList := by
    intro git singles doubles
    have hlast : (git.name.toList ++
        ' ' :: (singles ++ (doubles ++ ['/', '/']))).getLast? = some '/' :=
      List.getLast?_eq_some_iff.mpr ⟨git.name.toList ++
        ' ' :: (singles ++ (doubles ++ ['/'])), by simp⟩
    exact @prefix_trimMatches Char isWhitespace _ 'g' '/' (by cases git <;> rfl)
      (by decide) hlast (by decide) command.toList
  rw [String.toList_ofList, head_repoPath_iff, doubleSlash_argument_iff]
  constructor
  · rintro ⟨singles, doubles, hsingles, hdoubles, hrest⟩
    have hprefix : git.name.toList ++
        ' ' :: (singles ++ (doubles ++ ['/', '/'])) <+: trim command.toList := by
      rw [hcommand]
      exact (List.prefix_append_right_inj _).mpr (List.cons_prefix_cons.mpr ⟨rfl, hrest⟩)
    obtain ⟨blanks, hblanks, hprefix⟩ := (hfront git singles doubles).mp hprefix
    exact ⟨blanks, git, singles, doubles, hblanks, hsingles, hdoubles, hprefix⟩
  · rintro ⟨blanks, git', singles, doubles, hblanks, hsingles, hdoubles, hprefix⟩
    obtain ⟨tail, htail⟩ := (hfront git' singles doubles).mpr ⟨blanks, hblanks, hprefix⟩
    -- a list has one split at its first space
    have hsplit := splitOnce_eq_some_iff.mpr ⟨hcommand, git.space_notMem_name⟩
    rw [← htail, List.append_assoc, List.cons_append,
      splitOnce_eq_some_iff.mpr ⟨rfl, git'.space_notMem_name⟩] at hsplit
    obtain ⟨-, rfl⟩ := Prod.mk.inj (Option.some.inj hsplit)
    exact ⟨singles, doubles, hsingles, hdoubles, List.prefix_append _ _⟩

/-! ### Quoting -/

/-- How git writes a character of an argument for a shell. -/
def escape (c : Char) : List Char :=
  if c = '\'' then ['\'', '\\', '\'', '\''] else if c = '!' then ['\'', '\\', '!', '\''] else [c]

def quote (cs : List Char) : List Char := '\'' :: cs.flatMap escape ++ ['\'']

theorem count_backslash_escape (cs : List Char) :
    (cs.flatMap escape).count '\\' = cs.count '\\' + cs.count '\'' + cs.count '!' := by
  induction cs with
  | nil => rfl
  | cons c cs ih =>
    rw [List.flatMap_cons, List.count_append, ih, escape]
    by_cases hquote : c = '\''
    · subst hquote
      simp
      omega
    by_cases hbang : c = '!'
    · subst hbang
      simp
      omega
    · simp [hquote, hbang, List.count_cons]
      omega

theorem flatMap_escape {cs : List Char} (hquote : '\'' ∉ cs) (hbang : '!' ∉ cs) :
    cs.flatMap escape = cs := by
  induction cs with
  | nil => rfl
  | cons c cs ih =>
    rw [List.mem_cons, not_or] at hquote hbang
    rw [List.flatMap_cons, ih hquote.2 hbang.2, escape, if_neg (Ne.symm hquote.1),
      if_neg (Ne.symm hbang.1), List.singleton_append]

theorem repoPath_quote (q : List Char) :
    repoPath (quote ('/' :: q)) =
      ((q.flatMap escape).rdropWhile (· = '\'')).rdropWhile (· = '"') := by
  have hescape : quote ('/' :: q) = '\'' :: '/' :: (q.flatMap escape ++ ['\'']) := rfl
  have hslash : ∀ (p : Char → Bool) (cs : List Char), p '/' = false →
      trimMatches p ('/' :: cs) = '/' :: cs.rdropWhile p := by
    intro p cs hp
    rw [trimMatches, List.dropWhile_cons_of_neg (by simp [hp])]
    exact rdropWhile_append_cons hp [] cs
  have hopening : trimMatches (· = '\'') (quote ('/' :: q)) =
      trimMatches (· = '\'') ('/' :: (q.flatMap escape ++ ['\''])) := by
    rw [hescape, trimMatches, List.dropWhile_cons_of_pos rfl, trimMatches]
  rw [repoPath, hopening, hslash _ _ rfl, hslash _ _ rfl, List.rdropWhile_concat_pos _ _ _ rfl]
  rfl

/-- **A quoted path comes back exactly if nothing in it is escaped and it does not end in a double
quote.** -/
theorem repoPath_quote_iff (q : List Char) :
    repoPath (quote ('/' :: q)) = q ↔ '\'' ∉ q ∧ '!' ∉ q ∧ q.getLast? ≠ some '"' := by
  rw [repoPath_quote]
  have hplain : '\'' ∉ q → '!' ∉ q →
      ((q.flatMap escape).rdropWhile (· = '\'')).rdropWhile (· = '"') = q.rdropWhile (· = '"') := by
    intro hquote hbang
    have hkeep : q.rdropWhile (· = '\'') = q :=
      rdropWhile_of_notMem fun c hc => decide_eq_false fun heq => hquote (heq ▸ hc)
    rw [flatMap_escape hquote hbang, hkeep]
  have hlast : q.rdropWhile (· = '"') = q ↔ q.getLast? ≠ some '"' := by
    rw [List.rdropWhile_eq_self_iff]
    cases hq : q.getLast? with
    | none => simp [List.getLast?_eq_none_iff.mp hq]
    | some last =>
      obtain ⟨init, rfl⟩ := List.getLast?_eq_some_iff.mp hq
      simp
  constructor
  · intro h
    have hcount := congrArg (List.count '\\') h
    rw [count_rdropWhile rfl, count_rdropWhile rfl, count_backslash_escape] at hcount
    have hquote : '\'' ∉ q := List.count_eq_zero.mp (by omega)
    have hbang : '!' ∉ q := List.count_eq_zero.mp (by omega)
    rw [hplain hquote hbang] at h
    exact ⟨hquote, hbang, hlast.mp h⟩
  · rintro ⟨hquote, hbang, hend⟩
    rw [hplain hquote hbang, hlast.mpr hend]

/-- What a client sends for a path. -/
def execString (git : GitCommand) (q : String) : String :=
  git.name ++ " " ++ String.ofList (quote ("/" ++ q).toList)

theorem parseGitCommand_execString (git : GitCommand) (q : String) :
    parseGitCommand (execString git q) =
      .ok (git, String.ofList (repoPath (quote ('/' :: q.toList)))) := by
  refine parseGitCommand_eq_ok_iff.mpr ⟨quote ('/' :: q.toList), ?_, rfl⟩
  have hexec : (execString git q).toList = git.name.toList ++ ' ' :: quote ('/' :: q.toList) := by
    simp [execString]
  obtain ⟨rest, hrest⟩ : ∃ rest, git.name.toList = 'g' :: rest := by
    cases git <;> exact ⟨_, rfl⟩
  have hends : 'g' :: rest ++ ' ' :: quote ('/' :: q.toList) =
      'g' :: (rest ++ ' ' :: '\'' :: ('/' :: q.toList).flatMap escape) ++ ['\''] := by
    simp [quote]
  rw [hexec, hrest, hends]
  exact trimMatches_of_ends (by decide) (by decide) _

/-- **What the parser does to paths**: an accepted path is relative exactly if the argument does not
begin with two slashes, and a path that a client quoted comes back exactly if it has no single
quote, no exclamation mark and no double quote at its end. -/
theorem parseGitCommand_paths {command path : String} {git : GitCommand}
    (h : parseGitCommand command = .ok (git, path))
    (sent : GitCommand) (q : String) :
    (path.toList.head? ≠ some '/' ↔ ¬ DoubleSlash command) ∧
    (parseGitCommand (execString sent q) = .ok (sent, q) ↔ '\'' ∉ q.toList ∧ '!' ∉ q.toList ∧ q.toList.getLast? ≠ some '"') := by
  refine ⟨not_congr (head_path_iff h), ?_⟩
  rw [parseGitCommand_execString, ← repoPath_quote_iff]
  constructor
  · intro heq
    have hpath := (Prod.mk.inj (Except.ok.inj heq)).2
    rw [← String.toList_inj, String.toList_ofList] at hpath
    exact hpath
  · intro heq
    rw [heq, String.ofList_toList]

theorem parseGitCommand_paths_fooBar :
    parseGitCommand "git-upload-pack '/foo/bar.git'" = .ok (.uploadPack, "foo/bar.git") ∧
    ¬ DoubleSlash "git-upload-pack '/foo/bar.git'" ∧
    parseGitCommand (execString .receivePack "foo/bar.git") =
      .ok (.receivePack, "foo/bar.git") := by
  have h : parseGitCommand "git-upload-pack '/foo/bar.git'" = .ok (.uploadPack, "foo/bar.git") := by
    decide +kernel
  obtain ⟨hrelative, hquoted⟩ := parseGitCommand_paths h .receivePack "foo/bar.git"
  exact ⟨h, hrelative.mp (by decide +kernel), hquoted.mpr (by decide +kernel)⟩

/-- Two slashes give an absolute path, and a quote comes back escaped. -/
theorem parseGitCommand_differs :
    parseGitCommand "git-upload-pack '//etc'" = .ok (.uploadPack, "/etc") ∧
    execString .uploadPack "it's.git" = "git-upload-pack '/it'\\''s.git'" ∧
    parseGitCommand (execString .uploadPack "it's.git") = .ok (.uploadPack, "it'\\''s.git") ∧
    parseGitCommand (execString .uploadPack "a\"") = .ok (.uploadPack, "a") := by
  decide +kernel

end Mizzle.Ssh