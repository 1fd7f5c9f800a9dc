import GajaeCode.Text.Spacing

/-! The bash policy for composer models: expressions that block a command, and the terminal commands
that are let through. -/
namespace GajaeCode.Tools

open Text
open Text.RegExp (literal literalCase seqs alts opt whole)

inductive ComposerBashPolicyToolSurface where
  | generic
  | cursor
deriving DecidableEq

def composerBashPolicyErrorHead : JsStr := lit "Composer bash policy blocked repository file I/O."

def composerBashPolicyErrorCode : JsStr := lit "composer-bash-policy:repository-file-io"

def formatComposerBashPolicyError (surface : ComposerBashPolicyToolSurface) : JsStr :=
  let recovery :=
    match surface with
    | .cursor =>
      lit "Continue the same task with Cursor-native read, grep, write, or delete tools; do not retry repository file I/O through shell."
    | .generic =>
      lit "Continue the same task with find, search, read, and edit tools; do not retry repository file I/O through bash."
  composerBashPolicyErrorHead ++ lit " [" ++ composerBashPolicyErrorCode ++ lit "] Recovery required: " ++ recovery

/-- `[/:._-]`. -/
def idSeparator : UnitClass := .of "/:._-"

def composerModelIdPattern : RegExp :=
  seqs [.alt .start (.cls idSeparator), opt (literalCase "grok-"), literalCase "composer",
    alts (.cls idSeparator) [.ahead (.cls digitClass), .stop]]

def isComposerHarnessModel (modelId : JsStr) : Bool := composerModelIdPattern.test modelId

def cursorModelIdPattern : RegExp :=
  seqs [.alt .start (.cls idSeparator), literalCase "cursor", .alt (.cls idSeparator) .stop]

def spaces : RegExp := .rep spaceClass 1

/-- `\S`. -/
def nonSpace : UnitClass := spaceClass.complement

/-- `(?:^|[;&|()\s])`. -/
def commandStart : RegExp := .alt .start (.cls (spaceClass.union (.of ";&|()")))

/-- `(?:\S*\/)?`. -/
def directory : RegExp := opt (.seq (.rep nonSpace 0) (literal "/"))

/-- `git(?:\s+-C\s+\S+)?\s+`. -/
def gitCommand : RegExp :=
  seqs [literal "git", opt (seqs [spaces, literal "-C", spaces, .rep nonSpace 1]), spaces]

/-- `.*(?:--name-only|--name-status|--stat)`. -/
def discoveryOption : RegExp :=
  .seq (.rep dotClass 0) (alts (literal "--name-only") [literal "--name-status", literal "--stat"])

def scriptFileCalls : RegExp :=
  alts (literal "read_text") [literal "read_bytes", literal "write_text", literal "iterdir",
    literal "listdir", literal "glob.glob", literal "readFile", literal "readFileSync",
    literal "writeFile", literal "writeFileSync", literal "readdir", literal "readdirSync",
    literal "stat", literal "statSync", literal "cpSync", literal "rmSync", literal "mkdirSync",
    literal "createReadStream", literal "createWriteStream", literal "Bun.file", literal "Bun.write",
    literal "fs.readFile", literal "fs.writeFile", literal "fs.readdir", literal "fs.stat",
    literal "fs.cp", literal "fs.rm", literal "fs.mkdir",
    seqs [literal "open", .rep spaceClass 0, literal "("]]

def blockPatterns : List (JsStr × RegExp) :=
  [(lit "pipe", literal "|"),
    (lit "process-substitution", .seq (literal "<") (.cls (.of ">("))),
    (lit "heredoc", .seq (literal "<<") (opt (.cls (.of "-~")))),
    (lit "command-substitution", .alt (literal "$(") (literal "`")),
    (lit "redirection", seqs [.alt .start (.cls (UnitClass.of "<>").complement),
      .alt (.seq (literal ">") (opt (literal ">"))) (literal "<"), .notAhead (literal "=")]),
    (lit "tee", seqs [.alt .start (.cls (spaceClass.union (.of ";&|"))), literal "tee",
      .alt (.cls spaceClass) .stop]),
    (lit "shell-file-read-discovery", seqs [commandStart, directory,
      alts (literal "cat") [literal "head", literal "tail", literal "less", literal "more",
        literal "grep", literal "rg", literal "find", literal "fd", literal "tree", literal "ls"],
      .boundary]),
    (lit "shell-file-mutation", seqs [commandStart, directory,
      alts (literal "cp") [literal "mv", literal "rm", literal "touch", literal "mkdir",
        literal "chmod", literal "chown", literal "ln"], .boundary]),
    (lit "sed-print", seqs [commandStart, literal "sed", spaces,
      .alt (seqs [literal "-", .rep nonSpace 0, literal "n", .boundary])
        (seqs [.rep dotClass 0, .boundary, literal "p", .boundary])]),
    (lit "awk-print", seqs [commandStart, literal "awk", .boundary]),
    (lit "git-ls-files", seqs [commandStart, gitCommand, literal "ls-files", .boundary]),
    (lit "git-grep", seqs [commandStart, gitCommand, literal "grep", .boundary]),
    (lit "git-show-path", seqs [commandStart, gitCommand, literal "show", spaces, .rep nonSpace 1,
      literal ":", .rep nonSpace 1]),
    (lit "git-diff", seqs [commandStart, gitCommand, literal "diff", .alt (.cls spaceClass) .stop]),
    (lit "git-cat-file", seqs [commandStart, gitCommand, literal "cat-file", .boundary]),
    (lit "git-show-discovery", seqs [commandStart, gitCommand, literal "show", .boundary, discoveryOption]),
    (lit "git-log-path-discovery", seqs [commandStart, gitCommand, literal "log", .boundary, discoveryOption]),
    (lit "sed-in-place", seqs [commandStart, literal "sed", spaces, literal "-", .rep nonSpace 0,
      literal "i", .boundary]),
    (lit "perl-in-place", seqs [commandStart, literal "perl", spaces, literal "-", .rep nonSpace 0,
      literal "p", .rep nonSpace 0, literal "i", .boundary]),
    (lit "script-file-io", seqs [commandStart,
      alts (.seq (literal "python") (opt (literal "3"))) [literal "node", literal "bun"], spaces,
      alts (seqs [literal "-", .rep spaceClass 0, literal "<<"])
        [.seq (literal "-c") .boundary, .seq (literal "-e") .boundary, .seq (literal "--eval") .boundary],
      .rep anyClass 0, scriptFileCalls]),
    (lit "contaminated-command", .alt (literal "```") (seqs [.lineStart, .rep spaceClass 0,
      alts (seqs [literalCase "I", spaces,
          alts (literalCase "will") [literalCase "need", literalCase "am going"]])
        [seqs [literalCase "We", spaces, .alt (literalCase "need") (literalCase "will")],
          .seq (literalCase "First") (.cls (.of ", ")), .seq (literalCase "Now") (.cls (.of ", ")),
          literalCase "Let's"], .boundary]))]

/-- `[\w./:@=-]`. -/
def argumentClass : UnitClass := wordClass.union (.of "./:@=-")

/-- `(?:\s+[\w./:@=-]+)*`. -/
def terminalArguments : RegExp := .star (.seq spaces (.rep argumentClass 1))

/-- `test(?::[\w-]+)?` and the like. -/
def scriptName (name : String) : RegExp :=
  .seq (literal name) (opt (.seq (literal ":") (.rep (wordClass.union (.of "-")) 1)))

/-- `bun\s+test(?:\s+[\w./:@=-]+)*`. -/
def bunTest : RegExp := seqs [literal "bun", spaces, literal "test", terminalArguments]

def bunRun : RegExp :=
  seqs [literal "bun", spaces, literal "run", spaces,
    alts (scriptName "check") [scriptName "test", scriptName "build"], terminalArguments]

/-- `mise\s+x\s+bun@\d+\.\d+\.\d+\s+--\s+`. -/
def miseBun : RegExp :=
  seqs [literal "mise", spaces, literal "x", spaces, literal "bun@", .rep digitClass 1, literal ".",
    .rep digitClass 1, literal ".", .rep digitClass 1, spaces, literal "--", spaces]

def terminalCommands : List RegExp :=
  [bunTest, bunRun,
    seqs [literal "bun", spaces, literal "--version"],
    .seq miseBun bunTest, .seq miseBun bunRun,
    seqs [literal "cargo", spaces, alts (literal "test") [literal "check", literal "build"], terminalArguments],
    seqs [literal "git", spaces, literal "status", opt (.seq spaces (literal "--short")),
      opt (.seq spaces (literal "--branch"))],
    seqs [literal "git", spaces, literal "rev-parse", spaces, literal "HEAD"],
    seqs [literal "npm", spaces, literal "--version"],
    seqs [literal "pnpm", spaces, literal "--version"],
    seqs [literal "yarn", spaces, literal "--version"]]

def allowedTerminalPatterns : List RegExp := terminalCommands.map whole

/-- `ALLOWED_TERMINAL_PATTERNS.some(pattern => pattern.test(text))`. -/
def matchesAllowed (text : JsStr) : Bool := allowedTerminalPatterns.any fun pattern => pattern.test text

/-- `command.trim().replace(/\s+/g, " ")`. -/
def normalizeTerminalCommand (command : JsStr) : JsStr := squeeze isJsWhitespace (trim command)

def isAllowedComposerTerminalCommand (command : JsStr) : Bool :=
  matchesAllowed (normalizeTerminalCommand command)

structure ComposerBashPolicyInput where
  modelId : Option JsStr
  provider : Option JsStr
  commands : List JsStr

inductive ComposerBashPolicyResult where
  | allowed
  | blocked (reason message : JsStr) (surface : ComposerBashPolicyToolSurface)
deriving DecidableEq

def isComposerBashPolicyModel : Option JsStr → Bool
  | none => false
  | some modelId => !modelId.isEmpty && isComposerHarnessModel modelId

def resolveComposerBashPolicyToolSurface (input : ComposerBashPolicyInput) : ComposerBashPolicyToolSurface :=
  -- outside ASCII no unit is lowered to a letter of the word
  if input.provider.map (List.map asciiLower) = some (lit "cursor") then .cursor
  else if cursorModelIdPattern.test (input.modelId.getD []) then .cursor else .generic

def refusal (command : JsStr) : Option JsStr :=
  match blockPatterns.find? fun block => block.2.test command with
  | some block => some block.1
  | none => if isAllowedComposerTerminalCommand command then none else some (lit "not-allowlisted")

def checkComposerBashPolicy (input : ComposerBashPolicyInput) : ComposerBashPolicyResult :=
  if isComposerBashPolicyModel input.modelId then
    let surface := resolveComposerBashPolicyToolSurface input
    match input.commands.findSome? refusal with
    | some reason => .blocked reason (formatComposerBashPolicyError surface) surface
    | none => .allowed
  else .allowed

end GajaeCode.Tools
