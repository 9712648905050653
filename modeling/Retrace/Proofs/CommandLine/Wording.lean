import Retrace.Proofs.CommandLine.Accepted
import Retrace.Proofs.CommandLine.Arguments

/-!
From commands to words and back. Each command has its arguments, with which its words lead to it from
the program (`spoken`, one case for each command); with the program's own options before them they are
read back. Main theorem: `commands_read_back`.
-/
namespace Retrace.CommandLine

open Reading

variable {g : Grammar} {r r' : Reading} {v w : Word} {ws : List Word} {name t : String}

/-! ### The arguments of each command -/

namespace Arguments

def none : Arguments (.leaf [] []) where
  options := []
  places := []

def text (id t : String) (h : id ≠ "verbose" ∧ id ≠ "project") :
    Arguments (.leaf [] [Grammar.place id .text true]) where
  options := []
  places := [.text id true t]
  distinct := by simp [h.1.symm, h.2.symm]

def history {n : Nat} (h : n < Nat.pow 2 64) : Arguments .history where
  options := [.valued? _ "limit" "limit" .count (by decide) (fun n => word (toString n)) .number (some n)
    (by rintro _ ⟨⟩; exact read_count h)]
  places := []

def undo (id : Option String) (force dryRun preserveBackups : Bool) : Arguments .undo where
  options := [.flag _ "force" "force" (by decide) force, .flag _ "dry-run" "dry_run" (by decide) dryRun,
    .flag _ "preserve-backups" "preserve_backups" (by decide) preserveBackups]
  places := id.toList.map (.text "id" false)
  distinct := by cases id <;> simp
  placed := by cases id <;> exact ⟨_, rfl⟩
  left := by
    cases id with
    | none => decide
    | some t => exact List.forall_mem_nil _

def checkpointCreate (name description : String) (transactions : List String) :
    Arguments .checkpointCreate where
  options := [.valued? _ "description" "description" .text (by decide) word .text (some description)
      fun t _ => read_text t,
    .each _ "transaction" "transactions" .text (by decide) word .text transactions
      fun t _ => read_text t]
  places := [.text "name" true name]

def checkpointRollback (id : String) (force dryRun parallel preserveBackups : Bool) :
    Arguments .checkpointRollback where
  options := [.flag _ "force" "force" (by decide) force, .flag _ "dry-run" "dry_run" (by decide) dryRun,
    .flag _ "parallel" "parallel" (by decide) parallel,
    .flag _ "preserve-backups" "preserve_backups" (by decide) preserveBackups]
  places := [.text "id" true id]

def clean (days : Option Nat) (h : ∀ n ∈ days, n < Nat.pow 2 32) (confirm : Bool) :
    Arguments .clean where
  options := [.valued? _ "older-than-days" "older_than_days" .days (by decide)
      (fun n => word (toString n)) .number days fun n hn => read_days (h n hn),
    .flag _ "confirm" "confirm" (by decide) confirm]
  places := []

def write {path : Path} {content : Option String} {source : Option Path}
    (h : (Command.write path content source).WellFormed) : Arguments .write where
  options := [.valued? _ "content" "content" .text (by decide) word .text content fun t _ => read_text t,
    .valued? _ "from" "from" .path (by decide) Path.bytes .path source
      fun p hp => read_path (h.2.1 p hp)]
  places := [.path "path" true path h.1]
  compatible := by
    intro p hp
    obtain rfl : p = ("content", "from") := by simpa [Grammar.exclusive, Grammar.write] using hp
    rcases h.2.2 with rfl | rfl
    · exact .inl (by cases source <;> rfl)
    · exact .inr (by cases content <;> rfl)

def remove {path : Path} (h : path.bytes ≠ []) :
    Arguments (.leaf [] [Grammar.place "path" .path true]) where
  options := []
  places := [.path "path" true path h]

def move {source target : Path} (h : (Command.move source target).WellFormed) : Arguments .move where
  options := []
  places := [.path "from" true source h.1, .path "to" true target h.2]

end Arguments

/-! ### From commands to words and back -/

/-- What is matched below the program stands for a command, and none of the program's own options are
in it. -/
structure Understood (c : Command) (m : Matched) : Prop where
  levels : m.levels ≠ []
  command : commandOf? (m.levels.getLastD []) m.names = some c
  own : ∀ l ∈ m.levels, l.lookup "verbose" = none ∧ l.lookup "project" = none

def Spoken (c : Command) : Prop :=
  ∃ w us name g m, renderCommand c = w :: us ∧ w ≠ Grammar.help ∧
    Grammar.program.command? w = some (name, g) ∧ matchFrom g {} us = .ok m ∧
      Understood c ⟨name :: m.names, m.levels⟩

def Grammar.named? (g : Grammar) (t : String) : Option (String × Grammar) :=
  (g.commands.find? (·.1.any (· = t))).bind fun (names, c) => names.head?.map (·, c)

theorem command?_word (g : Grammar) (t : String) : g.command? (word t) = g.named? t := by
  have hfind : (fun c : List String × Grammar => c.1.any (Utf8.encode · = word t)) =
      fun c => c.1.any (· = t) := by
    funext c
    simp only [word, Utf8.encode_inj]
  rw [Grammar.command?, Grammar.named?, hfind]
  cases g.commands.find? (·.1.any (· = t)) with
  | none => rfl
  | some c => cases h : c.1.head? <;> simp [h]

theorem word_ne_help (ht : t ≠ "help") : word t ≠ Grammar.help := fun hc => ht (Utf8.encode_inj.1 hc)

namespace Arguments

variable {c : Command}

theorem spoken (A : Arguments g) (t : String) (ht : t ≠ "help")
    (hc : Grammar.program.named? t = some (name, g)) (h : commandOf? A.found [name] = some c)
    (hw : renderCommand c = word t :: A.words) : Spoken c :=
  ⟨_, _, name, g, _, hw, word_ne_help ht, (command?_word _ t).trans hc, A.matched, by simp, h,
    by simpa using A.own⟩

theorem spoken_checkpoint (A : Arguments g) (t : String) (ht : t ≠ "help")
    (hc : Grammar.checkpoint.named? t = some (name, g))
    (h : commandOf? A.found ["checkpoint", name] = some c)
    (hw : renderCommand c = word "checkpoint" :: word t :: A.words) : Spoken c :=
  ⟨_, _, "checkpoint", .checkpoint, _, hw, word_ne_help (by decide), command?_word _ "checkpoint",
    matchFrom_named (f := []) rfl (word_ne_help ht) ((command?_word _ t).trans hc) A.matched rfl,
    by simp, h, by simpa using A.own⟩

end Arguments

theorem texts_map (ts : List String) : (ts.map Value.text).filterMap (fun
    | .text t => some t
    | _ => none) = ts := by
  rw [List.filterMap_map]
  exact List.filterMap_some

theorem spoken {c : Command} (h : c.WellFormed) : Spoken c := by
  cases c with
  | history n => exact (Arguments.history h).spoken "history" (by decide) rfl rfl rfl
  | points => exact Arguments.none.spoken "points" (by decide) rfl rfl rfl
  | preview id => exact (Arguments.text "id" id (by decide)).spoken "preview" (by decide) rfl rfl rfl
  | undo id force dryRun preserveBackups =>
    refine (Arguments.undo id force dryRun preserveBackups).spoken "undo" (by decide) rfl ?_ ?_
    · cases id <;> cases force <;> cases dryRun <;> cases preserveBackups <;> rfl
    · cases id <;> simp [renderCommand, Arguments.undo, Arguments.words]
  | checkpointCreate name description transactions =>
    refine (Arguments.checkpointCreate name description transactions).spoken_checkpoint "create"
      (by decide) rfl ?_ ?_
    · cases transactions with
      | nil => rfl
      | cons t ts =>
        exact congrArg (some <| Command.checkpointCreate name description ·) (texts_map (t :: ts))
    · simp [renderCommand, Arguments.checkpointCreate, Arguments.words, valued?]
  | checkpointList => exact Arguments.none.spoken_checkpoint "list" (by decide) rfl rfl rfl
  | checkpointRollback id force dryRun parallel preserveBackups =>
    refine (Arguments.checkpointRollback id force dryRun parallel preserveBackups).spoken_checkpoint
      "rollback" (by decide) rfl ?_ ?_
    · cases force <;> cases dryRun <;> cases parallel <;> cases preserveBackups <;> rfl
    · simp [renderCommand, Arguments.checkpointRollback, Arguments.words]
  | checkpointDelete id =>
    exact (Arguments.text "id" id (by decide)).spoken_checkpoint "delete" (by decide) rfl rfl rfl
  | stats => exact Arguments.none.spoken "stats" (by decide) rfl rfl rfl
  | clean days confirm =>
    refine (Arguments.clean days h confirm).spoken "clean" (by decide) rfl ?_ ?_
    · cases days <;> cases confirm <;> rfl
    · simp [renderCommand, Arguments.clean, Arguments.words, byPlace]
  | write path content source =>
    refine (Arguments.write h).spoken "write" (by decide) rfl ?_ ?_
    · cases content <;> cases source <;> rfl
    · simp [renderCommand, Arguments.write, Arguments.words]
  | remove path => exact (Arguments.remove h).spoken "remove" (by decide) rfl rfl rfl
  | move source target => exact (Arguments.move h).spoken "mv" (by decide) rfl rfl rfl

def globals (verbose : Bool) (project : Path) : List Word :=
  flag "verbose" verbose ++ valued "project" project.bytes

def globalsFound (verbose : Bool) (project : Path) : Found :=
  (if verbose then [("verbose", [])] else []) ++ [("project", [.path project])]

theorem reads_globals (verbose : Bool) {project : Path} (hp : project.bytes ≠ []) :
    Reads .program {} (globals verbose project) { found := globalsFound verbose project } := by
  let gs : List (Given .program) :=
    [.flag _ "verbose" "verbose" (by decide) verbose,
      .valued? _ "project" "project" .path (by decide) Path.bytes .path (some project)
        (by rintro _ ⟨⟩; exact read_path hp)]
  exact Given.reads_all gs (by simp [gs])

/-- What has been written is read back. -/
theorem parse_rendered {i : Invocation} (h : i.WellFormed) : parse (render i) = .ok i := by
  obtain ⟨verbose, project, command⟩ := i
  obtain ⟨w, us, name, g, m, hwords, hhelp, hnamed, hm, hu⟩ := spoken h.command
  let f := globalsFound verbose project
  have hf : Reading.check .program true { found := f } = .ok f :=
    check_settled (s := { found := f }) rfl (.inr rfl) (List.forall_mem_nil _) (List.forall_mem_nil _)
  have hmatched : matchFrom .program {} (render ⟨verbose, project, command⟩) =
      .ok ⟨name :: m.names, f :: m.levels⟩ := by
    rw [render, show renderCommand command = w :: us from hwords]
    exact (matchFrom_reads (reads_globals verbose h.project) _).trans
      (matchFrom_named rfl hhelp hnamed hm hf)
  have hlast : (f :: m.levels).getLastD [] = m.levels.getLastD [] := by
    obtain ⟨l, ls, hls⟩ := List.exists_cons_of_ne_nil hu.levels
    rw [hls, List.getLastD_cons, List.getLastD_cons, List.getLastD_cons]
  have hverbose : ((f :: m.levels).any fun l => Found.given l "verbose") = verbose := by
    have hnone : (m.levels.any fun l => Found.given l "verbose") = false :=
      List.any_eq_false.2 fun l hl => by simp [Found.given, (hu.own l hl).1]
    have hfirst : Found.given f "verbose" = verbose := by cases verbose <;> rfl
    rw [List.any_cons, hnone, Bool.or_false, hfirst]
  have hproject : (f :: m.levels).reverse.findSome? (Found.path? · "project") = some project := by
    have hnone : m.levels.reverse.findSome? (Found.path? · "project") = none :=
      List.findSome?_eq_none_iff.2 fun l hl => by
        rw [Found.path?, (hu.own l (List.mem_reverse.1 hl)).2]
    have hfirst : Found.path? f "project" = some project := by cases verbose <;> rfl
    rw [List.reverse_cons, List.findSome?_append, hnone, List.findSome?_singleton, hfirst,
      Option.none_or]
  have hcommand : commandOf? ((f :: m.levels).getLastD []) (name :: m.names) = some command := by
    rw [hlast]
    exact hu.command
  simp only [parse, hmatched, bind, Except.bind, pure, Except.pure, hcommand, hverbose, hproject,
    Option.getD_some]

theorem matchFrom_alias {x : String × Grammar} (h : Reads g r ws r') (hr : r'.mayName = true)
    (hv : v ≠ Grammar.help) (hw : w ≠ Grammar.help) (hcv : g.command? v = some x)
    (hcw : g.command? w = some x) (rest : List Word) :
    matchFrom g r (ws ++ v :: rest) = matchFrom g r (ws ++ w :: rest) := by
  rw [matchFrom_reads h, matchFrom_reads h, matchFrom_command hr hv hcv, matchFrom_command hr hw hcw]

/-- Exactly the invocations that can be put into words are read back from their words, whatever is
accepted could have been put so, and an undo may be called a rollback. -/
theorem commands_read_back :
    (∀ i : Invocation, parse (render i) = .ok i ↔ i.WellFormed) ∧
      (∀ args i, parse args = .ok i → i.WellFormed) ∧
        ∀ before r, Reads .program {} before r → r.mayName = true → ∀ rest,
          parse (before ++ word "rollback" :: rest) = parse (before ++ word "undo" :: rest) := by
  refine ⟨fun i => ⟨parse_wellFormed, parse_rendered⟩, fun _ _ => parse_wellFormed, ?_⟩
  intro before r hreads hname rest
  have halias := matchFrom_alias hreads hname (word_ne_help (t := "rollback") (by decide))
    (word_ne_help (t := "undo") (by decide)) (command?_word .program "rollback")
    (command?_word .program "undo") rest
  rw [parse, parse, halias]

theorem commands_read_back_dashes :
    parse (render ⟨true, .ofString "-C", .write (.ofString "--from") (some "") none⟩) =
        .ok ⟨true, .ofString "-C", .write (.ofString "--from") (some "") none⟩ ∧
      parse (globals false (.ofString "--") ++ word "rollback" :: [word "--force"]) =
        parse (globals false (.ofString "--") ++ word "undo" :: [word "--force"]) ∧
          parse [word "write", word "--content=", word "--from=-", word "-"] ≠
            .ok ⟨false, .ofString ".", .write (.ofString "-") (some "") (some (.ofString "-"))⟩ := by
  obtain ⟨hread, hsound, halias⟩ := commands_read_back
  refine ⟨(hread _).2 ⟨by decide, by decide, nofun, .inr rfl⟩,
    halias _ _ (reads_globals false (by decide)) rfl _, fun h => ?_⟩
  exact (hsound _ _ h).command.2.2.elim nofun nofun

end Retrace.CommandLine
