/-!
# Diagnostic codes

Each code of the toolchain has a category, a severity, a description, an advice and the mark of the
faults that stop a batch. A code outside the registry is shown as it is.
-/

namespace JackToolchain.Diagnostics

inductive Severity
  | critical
  | high
  | medium
  | low
  deriving DecidableEq, Repr

namespace Severity

def text : Severity → String
  | critical => "Critical"
  | high => "High"
  | medium => "Medium"
  | low => "Low"

/-- Zero is the most severe. -/
def rank : Severity → Nat
  | critical => 0
  | high => 1
  | medium => 2
  | low => 3

end Severity

inductive Code
  | internalError
  | initializationFailure
  | fileNotFound
  | invalidExtension
  | fileTooLarge
  | permissionDenied
  | invalidEncoding
  | readFailure
  | invalidPath
  | writeFailure
  | unrecognizedInput
  | unterminatedString
  | integerOutOfRange
  | identifierTooLong
  | stringTooLarge
  | unterminatedComment
  | tooManyTokens
  | unexpectedEndOfInput
  | trailingInput
  | unexpectedToken
  | maxRecursionDepth
  | unresolvedIdentifier
  | unsupportedNode
  | commandLimitExceeded
  | discoveryFailed
  | tooManyFiles
  | workerLost
  | unknownCommand
  | invalidSegment
  | invalidIndex
  | invalidName
  | illegalOperation
  | unknownFunction
  | unknownLabel
  | runtimeFault
  | stepLimitExceeded
  | unknownMnemonic
  | malformedInstruction
  | constantOutOfRange
  | duplicateLabel
  | programTooLarge
  | started
  | fileDone
  | tokenized
  | parsed
  | scopeBuilt
  | codeGenerated
  | outputWritten
  | batchDone
  /-- A code outside the registry. -/
  | plain (text : String)
  deriving DecidableEq, Repr

namespace Code

def text : Code → String
  | internalError => "ERR001"
  | initializationFailure => "ERR002"
  | fileNotFound => "E005"
  | invalidExtension => "E006"
  | fileTooLarge => "E007"
  | permissionDenied => "E009"
  | invalidEncoding => "E010"
  | readFailure => "E011"
  | invalidPath => "E012"
  | writeFailure => "E013"
  | unrecognizedInput => "E020"
  | unterminatedString => "E021"
  | integerOutOfRange => "E022"
  | identifierTooLong => "E023"
  | stringTooLarge => "E024"
  | unterminatedComment => "E026"
  | tooManyTokens => "E027"
  | unexpectedEndOfInput => "E041"
  | trailingInput => "E042"
  | unexpectedToken => "E050"
  | maxRecursionDepth => "E087"
  | unresolvedIdentifier => "E110"
  | unsupportedNode => "E111"
  | commandLimitExceeded => "E112"
  | discoveryFailed => "E150"
  | tooManyFiles => "E151"
  | workerLost => "E152"
  | unknownCommand => "E200"
  | invalidSegment => "E201"
  | invalidIndex => "E202"
  | invalidName => "E203"
  | illegalOperation => "E210"
  | unknownFunction => "E220"
  | unknownLabel => "E221"
  | runtimeFault => "E222"
  | stepLimitExceeded => "E223"
  | unknownMnemonic => "E300"
  | malformedInstruction => "E301"
  | constantOutOfRange => "E302"
  | duplicateLabel => "E303"
  | programTooLarge => "E304"
  | started => "I004"
  | fileDone => "I006"
  | tokenized => "I020"
  | parsed => "I040"
  | scopeBuilt => "I050"
  | codeGenerated => "I060"
  | outputWritten => "I061"
  | batchDone => "I070"
  | plain text => text

/-- What the registry holds for a code. -/
structure Entry where
  category : String
  severity : Severity
  /-- The fault stops the batch, not only its own file. -/
  halts : Bool
  description : String
  advice : String
  deriving DecidableEq, Repr

def entry? : Code → Option Entry
  | internalError => some
    ⟨"System", .critical, true, "Internal compiler error",
      "File a bug report with the input that triggered it"⟩
  | initializationFailure => some
    ⟨"System", .critical, true, "Logging or configuration failed to initialize",
      "Check JACK_* environment variables"⟩
  | fileNotFound => some
    ⟨"FileProcessing", .high, false, "Input file does not exist",
      "Check the path passed on the command line"⟩
  | invalidExtension => some
    ⟨"FileProcessing", .medium, false, "Input file does not have a .jack extension",
      "Rename the file or set JACK_REQUIRE_JACK_EXTENSION=false"⟩
  | fileTooLarge => some
    ⟨"FileProcessing", .high, false, "Input file exceeds the configured size limit",
      "Split the class or raise max_file_size in the build profile"⟩
  | permissionDenied => some
    ⟨"FileProcessing", .high, false, "Input file is not readable",
      "Check file permissions"⟩
  | invalidEncoding => some
    ⟨"FileProcessing", .high, false, "Input file is not valid UTF-8",
      "Re-save the file as UTF-8"⟩
  | readFailure => some
    ⟨"FileProcessing", .high, false, "I/O error while reading input",
      "Retry; check the filesystem"⟩
  | invalidPath => some
    ⟨"FileProcessing", .high, false, "Path is neither a file nor a directory",
      "Pass a .jack file or a directory"⟩
  | writeFailure => some
    ⟨"FileProcessing", .high, false, "Could not write the .vm output file",
      "Check that the output directory is writable"⟩
  | unrecognizedInput => some
    ⟨"Lexical", .high, false, "Input matches no token rule",
      "Remove or fix the offending characters"⟩
  | unterminatedString => some
    ⟨"Lexical", .high, false, "String literal is not closed before end of line",
      "Add the closing double quote"⟩
  | integerOutOfRange => some
    ⟨"Lexical", .high, false, "Integer literal exceeds 32767",
      "Use a smaller constant or compute the value"⟩
  | identifierTooLong => some
    ⟨"Lexical", .medium, false, "Identifier exceeds the configured length limit",
      "Use a shorter name"⟩
  | stringTooLarge => some
    ⟨"Lexical", .medium, false, "String literal exceeds the configured size limit",
      "Split the string"⟩
  | unterminatedComment => some
    ⟨"Lexical", .high, false, "Block comment is not closed",
      "Add the closing */"⟩
  | tooManyTokens => some
    ⟨"Lexical", .high, false, "Source file produces too many tokens",
      "Split the class"⟩
  | unexpectedEndOfInput => some
    ⟨"Syntax", .high, false, "Source ended in the middle of a construct",
      "Check for missing closing braces"⟩
  | trailingInput => some
    ⟨"Syntax", .high, false, "Tokens follow the end of the class declaration",
      "One class per file"⟩
  | unexpectedToken => some
    ⟨"Syntax", .high, false, "Token does not fit the grammar at this point",
      "Check the expected token named in the message"⟩
  | maxRecursionDepth => some
    ⟨"Syntax", .high, false, "Expression or statement nesting is too deep",
      "Flatten the nested construct"⟩
  | unresolvedIdentifier => some
    ⟨"CodeGeneration", .high, false, "Identifier is not declared in subroutine or class scope",
      "Declare the variable or fix the spelling"⟩
  | unsupportedNode => some
    ⟨"CodeGeneration", .critical, true, "AST node cannot be lowered in this position",
      "File a bug report; parser and generator disagree"⟩
  | commandLimitExceeded => some
    ⟨"CodeGeneration", .high, false, "Class produces too many stack-machine commands",
      "Split the class"⟩
  | discoveryFailed => some
    ⟨"Batch", .high, false, "Could not list the input directory",
      "Check directory permissions"⟩
  | tooManyFiles => some
    ⟨"Batch", .medium, false, "Directory holds more source files than the batch limit",
      "Pass --max-files or split the directory"⟩
  | workerLost => some
    ⟨"Batch", .critical, true, "A compilation worker thread panicked",
      "File a bug report"⟩
  | unknownCommand => some
    ⟨"VirtualMachine", .high, false, "Line is not a stack-machine command",
      "Check the command spelling and field count"⟩
  | invalidSegment => some
    ⟨"VirtualMachine", .high, false, "Unknown memory segment",
      "Use argument, local, static, constant, this, that, pointer or temp"⟩
  | invalidIndex => some
    ⟨"VirtualMachine", .high, false, "Segment index is malformed or out of range",
      "pointer takes 0 or 1, temp 0 to 7"⟩
  | invalidName => some
    ⟨"VirtualMachine", .high, false, "Label or function name is not a valid symbol",
      "Names may not start with a digit"⟩
  | illegalOperation => some
    ⟨"VirtualMachine", .high, false, "Command is not allowed in this position",
      "Check the surrounding function declaration"⟩
  | unknownFunction => some
    ⟨"VirtualMachine", .high, false, "Called function is neither defined nor built in",
      "Add the class defining it to the program"⟩
  | unknownLabel => some
    ⟨"VirtualMachine", .high, false, "Jump target is not defined in the enclosing function",
      "Define the label in the same function"⟩
  | runtimeFault => some
    ⟨"VirtualMachine", .high, false, "Execution fault in the interpreter",
      "Inspect the function named in the message"⟩
  | stepLimitExceeded => some
    ⟨"VirtualMachine", .medium, false, "Execution did not finish within the step limit",
      "Check for an infinite loop or raise the limit"⟩
  | unknownMnemonic => some
    ⟨"Assembler", .high, false, "Unknown comp, dest or jump mnemonic",
      "Check the instruction against the Hack instruction set"⟩
  | malformedInstruction => some
    ⟨"Assembler", .high, false, "Line is not an A-instruction, C-instruction or label",
      "Check the line's syntax"⟩
  | constantOutOfRange => some
    ⟨"Assembler", .high, false, "A-instruction constant does not fit in 15 bits",
      "Use a value from 0 to 32767"⟩
  | duplicateLabel => some
    ⟨"Assembler", .high, false, "Label is defined more than once",
      "Rename one of the labels"⟩
  | programTooLarge => some
    ⟨"Assembler", .high, false, "Program exceeds the 32K instruction ROM",
      "Reduce the program size"⟩
  | started => some
    ⟨"System", .low, false, "Logging initialized",
      "Continue"⟩
  | fileDone => some
    ⟨"FileProcessing", .low, false, "File compiled",
      "Continue"⟩
  | tokenized => some
    ⟨"Lexical", .low, false, "Tokenization completed",
      "Continue to parsing"⟩
  | parsed => some
    ⟨"Syntax", .low, false, "Class AST built",
      "Continue to code generation"⟩
  | scopeBuilt => some
    ⟨"CodeGeneration", .low, false, "Class symbol table populated",
      "Continue"⟩
  | codeGenerated => some
    ⟨"CodeGeneration", .low, false, "Stack-machine commands emitted",
      "Continue"⟩
  | outputWritten => some
    ⟨"FileProcessing", .low, false, "Output file written",
      "Continue"⟩
  | batchDone => some
    ⟨"Batch", .low, false, "Directory compiled",
      "Continue"⟩
  | plain _ => none

/-- The codes of the registry. -/
def registered : List Code :=
  [.internalError, .initializationFailure, .fileNotFound, .invalidExtension, .fileTooLarge,
    .permissionDenied, .invalidEncoding, .readFailure, .invalidPath, .writeFailure,
    .unrecognizedInput, .unterminatedString, .integerOutOfRange, .identifierTooLong,
    .stringTooLarge, .unterminatedComment, .tooManyTokens, .unexpectedEndOfInput, .trailingInput,
    .unexpectedToken, .maxRecursionDepth, .unresolvedIdentifier, .unsupportedNode,
    .commandLimitExceeded, .discoveryFailed, .tooManyFiles, .workerLost, .unknownCommand,
    .invalidSegment, .invalidIndex, .invalidName, .illegalOperation, .unknownFunction,
    .unknownLabel, .runtimeFault, .stepLimitExceeded, .unknownMnemonic, .malformedInstruction,
    .constantOutOfRange, .duplicateLabel, .programTooLarge, .started, .fileDone, .tokenized,
    .parsed, .scopeBuilt, .codeGenerated, .outputWritten, .batchDone]

def ofText? (text : String) : Option Code :=
  registered.find? fun code => code.text == text

def category (code : Code) : String :=
  (code.entry?.map Entry.category).getD "Unknown"

def severity (code : Code) : Severity :=
  (code.entry?.map Entry.severity).getD .medium

def halts (code : Code) : Bool :=
  (code.entry?.map Entry.halts).getD false

def description (code : Code) : String :=
  (code.entry?.map Entry.description).getD "Unknown error"

def advice (code : Code) : String :=
  (code.entry?.map Entry.advice).getD "No specific action available"

end Code

end JackToolchain.Diagnostics
