import RubySig.Bundled.File

/-!
# Bundled signatures: classes and modules

One definition for each file: `basicObject`, `object`, `module`, `comparable`.
-/

namespace RubySig

namespace Bundled

/-- The root class. -/
def basicObject : BundledFile := .ofLines "core/basic_object.rbs"
  ["# The root of every class hierarchy.",
    "class BasicObject",
    "  def initialize: () -> void",
    "",
    "  def !: () -> bool",
    "",
    "  def ==: (untyped other) -> bool",
    "",
    "  def !=: (untyped other) -> bool",
    "",
    "  def equal?: (untyped other) -> bool",
    "",
    "  def __id__: () -> Integer",
    "",
    "  def instance_eval: [U] () \x7b (self) -> U \x7d -> U",
    "",
    "  def instance_exec: [U] (*untyped args) \x7b (*untyped) -> U \x7d -> U",
    "",
    "  private",
    "",
    "  def method_missing: (Symbol name, *untyped args) -> untyped",
    "",
    "  def singleton_method_added: (Symbol name) -> void",
    "end"]

/-- `Object` and `Kernel`. -/
def object : BundledFile := .ofLines "core/object.rbs"
  ["class Object < BasicObject",
    "  include Kernel",
    "",
    "  def yield_self: [X] () \x7b (self) -> X \x7d -> X",
    "                | () -> Enumerator[self, untyped]",
    "",
    "  alias then yield_self",
    "",
    "  def tap: () \x7b (self) -> void \x7d -> self",
    "",
    "  def itself: () -> self",
    "",
    "  def class: () -> untyped",
    "",
    "  def singleton_class: () -> Class",
    "",
    "  def frozen?: () -> bool",
    "",
    "  def freeze: () -> self",
    "",
    "  def dup: () -> self",
    "",
    "  def to_s: () -> String",
    "",
    "  def inspect: () -> String",
    "",
    "  def hash: () -> Integer",
    "",
    "  def eql?: (untyped other) -> bool",
    "",
    "  def ===: (untyped other) -> bool",
    "",
    "  def =~: (untyped other) -> nil",
    "",
    "  def is_a?: (Module klass) -> bool",
    "",
    "  alias kind_of? is_a?",
    "",
    "  def instance_of?: (Module klass) -> bool",
    "",
    "  def nil?: () -> bool",
    "",
    "  def respond_to?: (Symbol | String name, ?bool include_all) -> bool",
    "",
    "  def send: (Symbol | String name, *untyped args) ?\x7b (*untyped) -> untyped \x7d -> untyped",
    "",
    "  alias public_send send",
    "",
    "  def instance_variable_get: (Symbol | String name) -> untyped",
    "",
    "  def instance_variable_set: [X] (Symbol | String name, X value) -> X",
    "",
    "  def instance_variables: () -> Array[Symbol]",
    "end",
    "",
    "# Methods every object can call on itself.",
    "module Kernel : BasicObject",
    "  private",
    "",
    "  def puts: (*untyped objects) -> nil",
    "",
    "  def print: (*untyped objects) -> nil",
    "",
    "  def p: [T] (T arg) -> T",
    "       | () -> nil",
    "",
    "  def raise: (?String message) -> bot",
    "           | (singleton(Exception) exception, ?String message) -> bot",
    "           | (Exception exception) -> bot",
    "",
    "  alias fail raise",
    "",
    "  def loop: () \x7b () -> void \x7d -> bot",
    "",
    "  def require: (String path) -> bool",
    "",
    "  def require_relative: (String path) -> bool",
    "",
    "  def block_given?: () -> bool",
    "",
    "  def lambda: () \x7b (*untyped) -> untyped \x7d -> Proc",
    "",
    "  def proc: () \x7b (*untyped) -> untyped \x7d -> Proc",
    "",
    "  def Integer: (untyped arg) -> Integer",
    "",
    "  def Float: (untyped arg) -> Float",
    "",
    "  def String: (_ToS arg) -> String",
    "",
    "  def Array: [T] (Array[T] | T arg) -> Array[T]",
    "",
    "  def self?.format: (String format, *untyped args) -> String",
    "",
    "  alias self.sprintf self.format",
    "",
    "  def self?.rand: () -> Float",
    "                | (Integer max) -> Integer",
    "",
    "  def self?.sleep: (?Integer | Float duration) -> Integer",
    "",
    "  def self?.gets: () -> String?",
    "end"]

/-- `Module` and `Class`. -/
def module : BundledFile := .ofLines "core/module.rbs"
  ["class Module < Object",
    "  def name: () -> String?",
    "",
    "  def to_s: () -> String",
    "",
    "  alias inspect to_s",
    "",
    "  def ===: (untyped other) -> bool",
    "",
    "  def ==: (untyped other) -> bool",
    "",
    "  def <: (Module other) -> bool?",
    "",
    "  def <=: (Module other) -> bool?",
    "",
    "  def >: (Module other) -> bool?",
    "",
    "  def ancestors: () -> Array[Module]",
    "",
    "  def include?: (Module other) -> bool",
    "",
    "  def instance_methods: (?bool include_super) -> Array[Symbol]",
    "",
    "  def method_defined?: (Symbol | String name) -> bool",
    "",
    "  def const_get: (Symbol | String name) -> untyped",
    "",
    "  def const_defined?: (Symbol | String name) -> bool",
    "",
    "  def module_eval: [U] () \x7b (self) -> U \x7d -> U",
    "",
    "  alias class_eval module_eval",
    "",
    "  private",
    "",
    "  def include: (*Module modules) -> self",
    "",
    "  def extend_object: (untyped object) -> untyped",
    "",
    "  def included: (Module base) -> void",
    "",
    "  def extended: (Module base) -> void",
    "",
    "  def prepended: (Module base) -> void",
    "",
    "  def module_function: (*Symbol names) -> self",
    "end",
    "",
    "class Class < Module",
    "  def allocate: () -> untyped",
    "",
    "  def new: (*untyped args) -> untyped",
    "",
    "  def superclass: () -> Class?",
    "",
    "  def subclasses: () -> Array[Class]",
    "",
    "  private",
    "",
    "  def inherited: (Class subclass) -> void",
    "end"]

/-- `Comparable`. -/
def comparable : BundledFile := .ofLines "core/comparable.rbs"
  ["interface _WithSpaceship",
    "  def <=>: (untyped other) -> Integer?",
    "end",
    "",
    "module Comparable : _WithSpaceship",
    "  def ==: (untyped other) -> bool",
    "",
    "  def <: (untyped other) -> bool",
    "",
    "  def <=: (untyped other) -> bool",
    "",
    "  def >: (untyped other) -> bool",
    "",
    "  def >=: (untyped other) -> bool",
    "",
    "  def between?: (untyped min, untyped max) -> bool",
    "",
    "  def clamp: (untyped min, untyped max) -> self",
    "end"]

end Bundled

end RubySig
