import RubySig.Bundled.File

/-!
# Bundled signatures: values, procs and exceptions

One definition for each file: `numeric`, `string`, `boolean`, `proc`, `exception`, `builtins`.
-/

namespace RubySig

namespace Bundled

/-- Numbers. -/
def numeric : BundledFile := .ofLines "core/numeric.rbs"
  ["class Numeric < Object",
    "  include Comparable",
    "",
    "  def +: (Numeric other) -> Numeric",
    "",
    "  def -: (Numeric other) -> Numeric",
    "",
    "  def <=>: (untyped other) -> Integer?",
    "",
    "  def -@: () -> Numeric",
    "",
    "  def +@: () -> Numeric",
    "",
    "  def abs: () -> Numeric",
    "",
    "  def zero?: () -> bool",
    "",
    "  def positive?: () -> bool",
    "",
    "  def negative?: () -> bool",
    "",
    "  def integer?: () -> bool",
    "",
    "  def to_i: () -> Integer",
    "",
    "  def to_f: () -> Float",
    "",
    "  def to_int: () -> Integer",
    "",
    "  def step: (Numeric limit, ?Numeric step) \x7b (Numeric) -> void \x7d -> self",
    "end",
    "",
    "class Integer < Numeric",
    "  def +: (Integer other) -> Integer",
    "       | (Float other) -> Float",
    "",
    "  def -: (Integer other) -> Integer",
    "       | (Float other) -> Float",
    "",
    "  def *: (Integer other) -> Integer",
    "       | (Float other) -> Float",
    "",
    "  def /: (Integer other) -> Integer",
    "       | (Float other) -> Float",
    "",
    "  def %: (Integer other) -> Integer",
    "",
    "  def **: (Integer other) -> Integer",
    "        | (Float other) -> Float",
    "",
    "  def <=>: (untyped other) -> Integer?",
    "",
    "  def ==: (untyped other) -> bool",
    "",
    "  def -@: () -> Integer",
    "",
    "  def abs: () -> Integer",
    "",
    "  def succ: () -> Integer",
    "",
    "  alias next succ",
    "",
    "  def pred: () -> Integer",
    "",
    "  def even?: () -> bool",
    "",
    "  def odd?: () -> bool",
    "",
    "  def times: () \x7b (Integer index) -> void \x7d -> self",
    "           | () -> Enumerator[Integer, self]",
    "",
    "  def upto: (Integer limit) \x7b (Integer index) -> void \x7d -> self",
    "          | (Integer limit) -> Enumerator[Integer, self]",
    "",
    "  def downto: (Integer limit) \x7b (Integer index) -> void \x7d -> self",
    "            | (Integer limit) -> Enumerator[Integer, self]",
    "",
    "  def to_s: (?Integer base) -> String",
    "",
    "  alias inspect to_s",
    "",
    "  def to_i: () -> Integer",
    "",
    "  def to_f: () -> Float",
    "",
    "  def chr: () -> String",
    "",
    "  def digits: (?Integer base) -> Array[Integer]",
    "end",
    "",
    "class Float < Numeric",
    "  def +: (Numeric other) -> Float",
    "",
    "  def -: (Numeric other) -> Float",
    "",
    "  def *: (Numeric other) -> Float",
    "",
    "  def /: (Numeric other) -> Float",
    "",
    "  def <=>: (untyped other) -> Integer?",
    "",
    "  def -@: () -> Float",
    "",
    "  def abs: () -> Float",
    "",
    "  def round: () -> Integer",
    "           | (Integer digits) -> Float",
    "",
    "  def floor: () -> Integer",
    "",
    "  def ceil: () -> Integer",
    "",
    "  def nan?: () -> bool",
    "",
    "  def infinite?: () -> Integer?",
    "",
    "  def finite?: () -> bool",
    "",
    "  def to_s: () -> String",
    "",
    "  alias inspect to_s",
    "",
    "  def to_i: () -> Integer",
    "",
    "  def to_f: () -> Float",
    "end"]

/-- Strings and symbols. -/
def string : BundledFile := .ofLines "core/string.rbs"
  ["interface _ToS",
    "  def to_s: () -> String",
    "end",
    "",
    "interface _ToStr",
    "  def to_str: () -> String",
    "end",
    "",
    "class String < Object",
    "  include Comparable",
    "",
    "  def initialize: (?String str) -> void",
    "",
    "  def +: (_ToStr other) -> String",
    "",
    "  def *: (Integer times) -> String",
    "",
    "  def %: (untyped args) -> String",
    "",
    "  def <<: (String | Integer other) -> String",
    "",
    "  def ==: (untyped other) -> bool",
    "",
    "  def <=>: (untyped other) -> Integer?",
    "",
    "  def =~: (untyped other) -> Integer?",
    "",
    "  def []: (Integer index) -> String?",
    "        | (Integer start, Integer length) -> String?",
    "        | (Range[Integer] range) -> String?",
    "",
    "  def []=: (Integer index, String value) -> String",
    "",
    "  def length: () -> Integer",
    "",
    "  alias size length",
    "",
    "  def bytesize: () -> Integer",
    "",
    "  def empty?: () -> bool",
    "",
    "  def upcase: () -> String",
    "",
    "  def downcase: () -> String",
    "",
    "  def capitalize: () -> String",
    "",
    "  def strip: () -> String",
    "",
    "  def chomp: (?String separator) -> String",
    "",
    "  def split: (?String pattern, ?Integer limit) -> Array[String]",
    "",
    "  def start_with?: (*String prefixes) -> bool",
    "",
    "  def end_with?: (*String suffixes) -> bool",
    "",
    "  def include?: (String other) -> bool",
    "",
    "  def sub: (String pattern, String replacement) -> String",
    "",
    "  def gsub: (String pattern, String replacement) -> String",
    "          | (String pattern) \x7b (String match) -> _ToS \x7d -> String",
    "",
    "  def chars: () -> Array[String]",
    "",
    "  def each_char: () \x7b (String char) -> void \x7d -> self",
    "               | () -> Enumerator[String, self]",
    "",
    "  def to_s: () -> String",
    "",
    "  alias to_str to_s",
    "",
    "  def to_sym: () -> Symbol",
    "",
    "  alias intern to_sym",
    "",
    "  def to_i: (?Integer base) -> Integer",
    "",
    "  def to_f: () -> Float",
    "",
    "  def inspect: () -> String",
    "",
    "  def freeze: () -> self",
    "",
    "  def frozen?: () -> bool",
    "end",
    "",
    "class Symbol < Object",
    "  include Comparable",
    "",
    "  def <=>: (untyped other) -> Integer?",
    "",
    "  def ==: (untyped other) -> bool",
    "",
    "  def []: (Integer index) -> String?",
    "",
    "  def to_s: () -> String",
    "",
    "  alias id2name to_s",
    "",
    "  alias name to_s",
    "",
    "  def to_sym: () -> self",
    "",
    "  def to_proc: () -> Proc",
    "",
    "  def length: () -> Integer",
    "",
    "  alias size length",
    "",
    "  def upcase: () -> Symbol",
    "",
    "  def downcase: () -> Symbol",
    "",
    "  def inspect: () -> String",
    "end"]

/-- `nil`, `true` and `false`. -/
def boolean : BundledFile := .ofLines "core/boolean.rbs"
  ["class NilClass < Object",
    "  def &: (untyped obj) -> false",
    "",
    "  def |: (untyped obj) -> bool",
    "",
    "  def nil?: () -> true",
    "",
    "  def to_a: () -> [ ]",
    "",
    "  def to_h: () -> Hash[untyped, untyped]",
    "",
    "  def to_s: () -> \"\"",
    "",
    "  def to_i: () -> 0",
    "",
    "  def inspect: () -> \"nil\"",
    "end",
    "",
    "class TrueClass < Object",
    "  def !: () -> false",
    "",
    "  def &: (untyped obj) -> bool",
    "",
    "  def |: (untyped obj) -> true",
    "",
    "  def ^: (untyped obj) -> bool",
    "",
    "  def to_s: () -> \"true\"",
    "",
    "  alias inspect to_s",
    "end",
    "",
    "class FalseClass < Object",
    "  def !: () -> true",
    "",
    "  def &: (untyped obj) -> false",
    "",
    "  def |: (untyped obj) -> bool",
    "",
    "  def ^: (untyped obj) -> bool",
    "",
    "  def to_s: () -> \"false\"",
    "",
    "  alias inspect to_s",
    "end"]

/-- Procs and method objects. -/
def proc : BundledFile := .ofLines "core/proc.rbs"
  ["class Proc < Object",
    "  def self.new: () \x7b (*untyped) -> untyped \x7d -> Proc",
    "",
    "  def call: (*untyped args) -> untyped",
    "",
    "  alias [] call",
    "",
    "  alias === call",
    "",
    "  alias yield call",
    "",
    "  def arity: () -> Integer",
    "",
    "  def lambda?: () -> bool",
    "",
    "  def curry: (?Integer arity) -> Proc",
    "",
    "  def parameters: () -> Array[[Symbol, Symbol]]",
    "",
    "  def to_proc: () -> self",
    "",
    "  def >>: (Proc other) -> Proc",
    "",
    "  def <<: (Proc other) -> Proc",
    "",
    "  def source_location: () -> [String, Integer]?",
    "end",
    "",
    "class Method < Object",
    "  def call: (*untyped args) -> untyped",
    "",
    "  alias [] call",
    "",
    "  def arity: () -> Integer",
    "",
    "  def name: () -> Symbol",
    "",
    "  def owner: () -> Module",
    "",
    "  def receiver: () -> untyped",
    "",
    "  def to_proc: () -> Proc",
    "",
    "  def unbind: () -> UnboundMethod",
    "end",
    "",
    "class UnboundMethod < Object",
    "  def arity: () -> Integer",
    "",
    "  def name: () -> Symbol",
    "",
    "  def owner: () -> Module",
    "",
    "  def bind: (untyped receiver) -> Method",
    "end"]

/-- Exceptions. -/
def exception : BundledFile := .ofLines "core/exception.rbs"
  ["class Exception < Object",
    "  def self.exception: (?String message) -> instance",
    "",
    "  def initialize: (?String message) -> void",
    "",
    "  def message: () -> String",
    "",
    "  def full_message: (?highlight: bool, ?order: :top | :bottom) -> String",
    "",
    "  def backtrace: () -> Array[String]?",
    "",
    "  def set_backtrace: (Array[String] backtrace) -> Array[String]",
    "",
    "  def cause: () -> Exception?",
    "",
    "  def exception: (?String message) -> self",
    "",
    "  def ==: (untyped other) -> bool",
    "",
    "  def inspect: () -> String",
    "",
    "  def to_s: () -> String",
    "end",
    "",
    "class ScriptError < Exception",
    "end",
    "",
    "class NotImplementedError < ScriptError",
    "end",
    "",
    "class StandardError < Exception",
    "end",
    "",
    "class RuntimeError < StandardError",
    "end",
    "",
    "class ArgumentError < StandardError",
    "end",
    "",
    "class TypeError < StandardError",
    "end",
    "",
    "class NameError < StandardError",
    "  def name: () -> Symbol?",
    "",
    "  def receiver: () -> untyped",
    "end",
    "",
    "class NoMethodError < NameError",
    "  def args: () -> Array[untyped]",
    "end",
    "",
    "class IndexError < StandardError",
    "end",
    "",
    "class KeyError < IndexError",
    "  def key: () -> untyped",
    "",
    "  def receiver: () -> untyped",
    "end",
    "",
    "class StopIteration < IndexError",
    "  def result: () -> untyped",
    "end",
    "",
    "class RangeError < StandardError",
    "end",
    "",
    "class FrozenError < RuntimeError",
    "  def receiver: () -> untyped",
    "end",
    "",
    "class ZeroDivisionError < StandardError",
    "end"]

/-- Constants and global variables. -/
def builtins : BundledFile := .ofLines "core/builtins.rbs"
  ["type boolish = top",
    "",
    "$PROGRAM_NAME: String",
    "",
    "$stdout: IO",
    "",
    "$stderr: IO",
    "",
    "$stdin: IO",
    "",
    "$LOAD_PATH: Array[String]",
    "",
    "RUBY_VERSION: String",
    "",
    "RUBY_PLATFORM: String",
    "",
    "ARGV: Array[String]",
    "",
    "ENV: Hash[String, String]",
    "",
    "STDOUT: IO",
    "",
    "STDERR: IO",
    "",
    "class IO < Object",
    "  def puts: (*untyped objects) -> nil",
    "",
    "  def print: (*untyped objects) -> nil",
    "",
    "  def write: (*_ToS objects) -> Integer",
    "",
    "  def <<: (_ToS object) -> self",
    "",
    "  def gets: (?String separator) -> String?",
    "",
    "  def read: (?Integer length) -> String?",
    "",
    "  def each_line: () \x7b (String line) -> void \x7d -> self",
    "               | () -> Enumerator[String, self]",
    "",
    "  def flush: () -> self",
    "",
    "  def sync: () -> bool",
    "",
    "  def sync=: (boolish value) -> boolish",
    "",
    "  def fileno: () -> Integer",
    "",
    "  def tty?: () -> bool",
    "",
    "  alias isatty tty?",
    "",
    "  def close: () -> nil",
    "",
    "  def closed?: () -> bool",
    "end"]

end Bundled

end RubySig
