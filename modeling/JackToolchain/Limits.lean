/-!
# Limits

The bounds that a build of the toolchain fixes.
-/

namespace JackToolchain.Limits

/-- Where the values come from. -/
def profile : String := "Generated from config/development.toml"

/-- Bytes of a source file. -/
def maxFileSize : Nat := 10485760

/-- A source file of more bytes is reported as large. -/
def largeFileThreshold : Nat := 1048576

/-- Bytes between the quotes of a string literal. -/
def maxStringSize : Nat := 4096

/-- Bytes of an identifier. -/
def maxIdentifierLength : Nat := 255

def maxIntegerLiteral : Nat := 32767

/-- Tokens of one source. -/
def maxTokenCount : Nat := 1000000

/-- Statement lists, expressions and unary operands that are open at once. -/
def maxParseDepth : Nat := 256

def maxCommandsPerClass : Nat := 1000000

def maxWorkerThreads : Nat := 8

def maxFilesPerBatch : Nat := 10000

/-- Events that an event buffer keeps. -/
def maxErrorCollection : Nat := 1000

/-- Events that a report keeps for one file. -/
def maxEventsPerFile : Nat := 500

/-- The largest unsigned number of 32 bits. -/
def maxWord32 : Nat := 0xFFFFFFFF

/-- The largest unsigned number of 64 bits. -/
def maxWord64 : Nat := 0xFFFFFFFFFFFFFFFF

end JackToolchain.Limits
