import RubySig.Bundled.File

/-!
# Bundled signatures: collections

One definition for each file: `enumerable`, `array`, `hash`, `range`, `set`.
-/

namespace RubySig

namespace Bundled

/-- `Enumerable` and `Enumerator`. -/
def enumerable : BundledFile := .ofLines "core/enumerable.rbs"
  ["interface _Each[out Elem]",
    "  def each: () \x7b (Elem) -> void \x7d -> void",
    "end",
    "",
    "module Enumerable[unchecked out Elem, out Return] : _Each[Elem]",
    "  def map: [U] () \x7b (Elem arg) -> U \x7d -> Array[U]",
    "         | () -> Enumerator[Elem, Array[untyped]]",
    "",
    "  alias collect map",
    "",
    "  def flat_map: [U] () \x7b (Elem arg) -> Array[U] \x7d -> Array[U]",
    "",
    "  def select: () \x7b (Elem arg) -> untyped \x7d -> Array[Elem]",
    "            | () -> Enumerator[Elem, Array[Elem]]",
    "",
    "  alias filter select",
    "",
    "  def reject: () \x7b (Elem arg) -> untyped \x7d -> Array[Elem]",
    "",
    "  def find: () \x7b (Elem arg) -> untyped \x7d -> Elem?",
    "",
    "  alias detect find",
    "",
    "  def each_with_index: () \x7b (Elem, Integer) -> void \x7d -> Return",
    "                     | () -> Enumerator[[Elem, Integer], Return]",
    "",
    "  def each_with_object: [U] (U memo) \x7b (Elem arg, U memo) -> void \x7d -> U",
    "",
    "  def each_entry: () \x7b (Elem arg) -> void \x7d -> Return",
    "",
    "  def inject: [A] (A initial) \x7b (A memo, Elem arg) -> A \x7d -> A",
    "            | () \x7b (Elem memo, Elem arg) -> Elem \x7d -> Elem",
    "",
    "  alias reduce inject",
    "",
    "  def include?: (Elem arg) -> bool",
    "",
    "  alias member? include?",
    "",
    "  def first: () -> Elem?",
    "           | (Integer n) -> Array[Elem]",
    "",
    "  def count: () -> Integer",
    "           | (Elem item) -> Integer",
    "",
    "  def min: () -> Elem?",
    "",
    "  def max: () -> Elem?",
    "",
    "  def sort: () -> Array[Elem]",
    "          | () \x7b (Elem a, Elem b) -> Integer \x7d -> Array[Elem]",
    "",
    "  def sort_by: [U] () \x7b (Elem arg) -> U \x7d -> Array[Elem]",
    "",
    "  def group_by: [U] () \x7b (Elem arg) -> U \x7d -> Hash[U, Array[Elem]]",
    "",
    "  def partition: () \x7b (Elem arg) -> untyped \x7d -> [Array[Elem], Array[Elem]]",
    "",
    "  def to_a: () -> Array[Elem]",
    "",
    "  alias entries to_a",
    "",
    "  def to_h: [K, V] () -> Hash[K, V]",
    "",
    "  def zip: [U] (Array[U] other) -> Array[[Elem, U?]]",
    "",
    "  def all?: () \x7b (Elem arg) -> untyped \x7d -> bool",
    "",
    "  def any?: () \x7b (Elem arg) -> untyped \x7d -> bool",
    "",
    "  def none?: () \x7b (Elem arg) -> untyped \x7d -> bool",
    "",
    "  def sum: () -> untyped",
    "end",
    "",
    "class Enumerator[unchecked out Elem, out Return] < Object",
    "  include Enumerable[Elem, Return]",
    "",
    "  def each: () \x7b (Elem arg) -> untyped \x7d -> Return",
    "          | () -> self",
    "",
    "  def next: () -> Elem",
    "",
    "  def peek: () -> Elem",
    "",
    "  def rewind: () -> self",
    "",
    "  def size: () -> Integer?",
    "",
    "  def with_index: (?Integer offset) \x7b (Elem arg, Integer index) -> untyped \x7d -> Return",
    "                | (?Integer offset) -> Enumerator[[Elem, Integer], Return]",
    "",
    "  def with_object: [U] (U memo) \x7b (Elem arg, U memo) -> untyped \x7d -> U",
    "end"]

/-- Arrays. -/
def array : BundledFile := .ofLines "core/array.rbs"
  ["class Array[unchecked out Elem] < Object",
    "  include Enumerable[Elem, self]",
    "",
    "  def self.[]: [U] (*U items) -> Array[U]",
    "",
    "  def initialize: () -> void",
    "                | (Integer size, ?Elem default) -> void",
    "                | (Integer size) \x7b (Integer index) -> Elem \x7d -> void",
    "",
    "  def +: [U] (Array[U] other) -> Array[Elem | U]",
    "",
    "  def -: (Array[untyped] other) -> Array[Elem]",
    "",
    "  def *: (Integer times) -> Array[Elem]",
    "       | (String separator) -> String",
    "",
    "  def &: (Array[untyped] other) -> Array[Elem]",
    "",
    "  def |: [U] (Array[U] other) -> Array[Elem | U]",
    "",
    "  def <<: (Elem item) -> self",
    "",
    "  def ==: (untyped other) -> bool",
    "",
    "  def []: (Integer index) -> Elem?",
    "        | (Integer start, Integer length) -> Array[Elem]?",
    "        | (Range[Integer] range) -> Array[Elem]?",
    "",
    "  def []=: (Integer index, Elem item) -> Elem",
    "",
    "  def at: (Integer index) -> Elem?",
    "",
    "  def dig: (Integer index, *untyped rest) -> untyped",
    "",
    "  def fetch: (Integer index) -> Elem",
    "           | [U] (Integer index, U default) -> (Elem | U)",
    "           | [U] (Integer index) \x7b (Integer index) -> U \x7d -> (Elem | U)",
    "",
    "  def first: () -> Elem?",
    "           | (Integer count) -> Array[Elem]",
    "",
    "  def last: () -> Elem?",
    "          | (Integer count) -> Array[Elem]",
    "",
    "  def push: (*Elem items) -> self",
    "",
    "  alias append push",
    "",
    "  def pop: () -> Elem?",
    "",
    "  def shift: () -> Elem?",
    "",
    "  def unshift: (*Elem items) -> self",
    "",
    "  alias prepend unshift",
    "",
    "  def insert: (Integer index, *Elem items) -> self",
    "",
    "  def concat: (*Array[Elem] arrays) -> self",
    "",
    "  def delete: (Elem item) -> Elem?",
    "",
    "  def delete_at: (Integer index) -> Elem?",
    "",
    "  def delete_if: () \x7b (Elem item) -> boolish \x7d -> self",
    "",
    "  def clear: () -> self",
    "",
    "  def length: () -> Integer",
    "",
    "  alias size length",
    "",
    "  def empty?: () -> bool",
    "",
    "  def each: () \x7b (Elem item) -> void \x7d -> self",
    "          | () -> Enumerator[Elem, self]",
    "",
    "  def each_index: () \x7b (Integer index) -> void \x7d -> self",
    "",
    "  def map: [U] () \x7b (Elem item) -> U \x7d -> Array[U]",
    "         | () -> Enumerator[Elem, Array[untyped]]",
    "",
    "  alias collect map",
    "",
    "  def map!: () \x7b (Elem item) -> Elem \x7d -> self",
    "",
    "  def select: () \x7b (Elem item) -> boolish \x7d -> Array[Elem]",
    "",
    "  alias filter select",
    "",
    "  def reject: () \x7b (Elem item) -> boolish \x7d -> Array[Elem]",
    "",
    "  def compact: () -> Array[Elem]",
    "",
    "  def flatten: (?Integer depth) -> Array[untyped]",
    "",
    "  def uniq: () -> Array[Elem]",
    "          | () \x7b (Elem item) -> untyped \x7d -> Array[Elem]",
    "",
    "  def reverse: () -> Array[Elem]",
    "",
    "  def rotate: (?Integer count) -> Array[Elem]",
    "",
    "  def sort: () -> Array[Elem]",
    "          | () \x7b (Elem a, Elem b) -> Integer \x7d -> Array[Elem]",
    "",
    "  def sort!: () -> self",
    "",
    "  def index: (untyped item) -> Integer?",
    "           | () \x7b (Elem item) -> boolish \x7d -> Integer?",
    "",
    "  def join: (?String separator) -> String",
    "",
    "  def sample: () -> Elem?",
    "",
    "  def shuffle: () -> Array[Elem]",
    "",
    "  def slice: (Integer start, Integer length) -> Array[Elem]?",
    "",
    "  def take: (Integer count) -> Array[Elem]",
    "",
    "  def drop: (Integer count) -> Array[Elem]",
    "",
    "  def transpose: () -> Array[Array[untyped]]",
    "",
    "  def product: [U] (Array[U] other) -> Array[[Elem, U]]",
    "",
    "  def pack: (String template) -> String",
    "",
    "  def to_a: () -> self",
    "",
    "  def to_ary: () -> self",
    "",
    "  def hash: () -> Integer",
    "",
    "  def inspect: () -> String",
    "",
    "  alias to_s inspect",
    "end"]

/-- Hashes. -/
def hash : BundledFile := .ofLines "core/hash.rbs"
  ["class Hash[unchecked out K, unchecked out V] < Object",
    "  include Enumerable[[K, V], self]",
    "",
    "  def self.[]: [U, T] (Array[[U, T]] pairs) -> Hash[U, T]",
    "",
    "  def initialize: () -> void",
    "                | (V default) -> void",
    "                | () \x7b (Hash[K, V] hash, K key) -> V \x7d -> void",
    "",
    "  def ==: (untyped other) -> bool",
    "",
    "  def []: (K key) -> V?",
    "",
    "  def []=: (K key, V value) -> V",
    "",
    "  alias store []=",
    "",
    "  def fetch: (K key) -> V",
    "           | [X] (K key, X default) -> (V | X)",
    "           | [X] (K key) \x7b (K key) -> X \x7d -> (V | X)",
    "",
    "  def dig: (K key, *untyped rest) -> untyped",
    "",
    "  def key?: (K key) -> bool",
    "",
    "  alias has_key? key?",
    "",
    "  alias include? key?",
    "",
    "  alias member? key?",
    "",
    "  def value?: (V value) -> bool",
    "",
    "  def key: (V value) -> K?",
    "",
    "  def keys: () -> Array[K]",
    "",
    "  def values: () -> Array[V]",
    "",
    "  def values_at: (*K keys) -> Array[V?]",
    "",
    "  def delete: (K key) -> V?",
    "            | [U] (K key) \x7b (K key) -> U \x7d -> (V | U)",
    "",
    "  def clear: () -> self",
    "",
    "  def length: () -> Integer",
    "",
    "  alias size length",
    "",
    "  def empty?: () -> bool",
    "",
    "  def each: () \x7b ([K, V] pair) -> void \x7d -> self",
    "          | () -> Enumerator[[K, V], self]",
    "",
    "  alias each_pair each",
    "",
    "  def each_key: () \x7b (K key) -> void \x7d -> self",
    "",
    "  def each_value: () \x7b (V value) -> void \x7d -> self",
    "",
    "  def merge: [A, B] (*Hash[A, B] others) -> Hash[K | A, V | B]",
    "           | [A, B, C] (*Hash[A, B] others) \x7b (K key, V old_value, B new_value) -> C \x7d -> Hash[K | A, V | B | C]",
    "",
    "  def update: (*Hash[K, V] others) -> self",
    "",
    "  alias merge! update",
    "",
    "  def select: () \x7b (K key, V value) -> boolish \x7d -> Hash[K, V]",
    "",
    "  alias filter select",
    "",
    "  def reject: () \x7b (K key, V value) -> boolish \x7d -> Hash[K, V]",
    "",
    "  def transform_keys: [A] () \x7b (K key) -> A \x7d -> Hash[A, V]",
    "",
    "  def transform_values: [A] () \x7b (V value) -> A \x7d -> Hash[K, A]",
    "",
    "  def invert: () -> Hash[V, K]",
    "",
    "  def group_by: [X] () \x7b ([K, V] pair) -> X \x7d -> Hash[X, Array[[K, V]]]",
    "",
    "  def to_a: () -> Array[[K, V]]",
    "",
    "  def to_h: () -> Hash[K, V]",
    "",
    "  def to_hash: () -> self",
    "",
    "  def default: () -> V?",
    "",
    "  def default=: (V value) -> V",
    "",
    "  def compare_by_identity: () -> self",
    "",
    "  def inspect: () -> String",
    "",
    "  alias to_s inspect",
    "end"]

/-- Ranges. -/
def range : BundledFile := .ofLines "core/range.rbs"
  ["class Range[out Elem] < Object",
    "  include Enumerable[Elem, Range[Elem]]",
    "",
    "  def initialize: (Elem from, Elem to, ?boolish exclude_end) -> void",
    "",
    "  def ==: (untyped other) -> bool",
    "",
    "  def ===: (untyped other) -> bool",
    "",
    "  def begin: () -> Elem",
    "",
    "  alias first begin",
    "",
    "  def last: () -> Elem",
    "          | (Integer count) -> Array[Elem]",
    "",
    "  def exclude_end?: () -> bool",
    "",
    "  def cover?: (untyped other) -> bool",
    "",
    "  def include?: (untyped other) -> bool",
    "",
    "  alias member? include?",
    "",
    "  def each: () \x7b (Elem item) -> void \x7d -> self",
    "          | () -> Enumerator[Elem, self]",
    "",
    "  def step: (Numeric amount) \x7b (Elem item) -> void \x7d -> self",
    "          | (Numeric amount) -> Enumerator[Elem, self]",
    "",
    "  def size: () -> Integer?",
    "",
    "  def sum: () -> Integer",
    "",
    "  def to_a: () -> Array[Elem]",
    "",
    "  def inspect: () -> String",
    "",
    "  def to_s: () -> String",
    "end"]

/-- The class `Set`. -/
def set : BundledFile := .ofLines "set/set.rbs"
  ["class Set[unchecked out A]",
    "  include Enumerable[A, self]",
    "",
    "  def self.[]: [X] (*X items) -> Set[X]",
    "",
    "  def initialize: (?_Each[A] items) -> void",
    "                | [X] (_Each[X] items) \x7b (X item) -> A \x7d -> void",
    "",
    "  def |: (_Each[A] other) -> Set[A]",
    "",
    "  alias union |",
    "",
    "  alias + |",
    "",
    "  def &: (_Each[A] other) -> Set[A]",
    "",
    "  alias intersection &",
    "",
    "  def -: (_Each[A] other) -> Set[A]",
    "",
    "  alias difference -",
    "",
    "  def ^: (_Each[A] other) -> Set[A]",
    "",
    "  def ==: (untyped other) -> bool",
    "",
    "  def add: (A item) -> self",
    "",
    "  alias << add",
    "",
    "  def add?: (A item) -> self?",
    "",
    "  def delete: (A item) -> self",
    "",
    "  def delete?: (A item) -> self?",
    "",
    "  def delete_if: () \x7b (A item) -> boolish \x7d -> self",
    "",
    "  def include?: (A item) -> bool",
    "",
    "  alias member? include?",
    "",
    "  alias === include?",
    "",
    "  def subset?: (Set[A] other) -> bool",
    "",
    "  alias <= subset?",
    "",
    "  def superset?: (Set[A] other) -> bool",
    "",
    "  alias >= superset?",
    "",
    "  def disjoint?: (Set[A] other) -> bool",
    "",
    "  def intersect?: (Set[A] other) -> bool",
    "",
    "  def each: () \x7b (A item) -> void \x7d -> self",
    "          | () -> Enumerator[A, self]",
    "",
    "  def map!: () \x7b (A item) -> A \x7d -> self",
    "",
    "  def select!: () \x7b (A item) -> boolish \x7d -> self?",
    "",
    "  def merge: (*_Each[A] others) -> self",
    "",
    "  def clear: () -> self",
    "",
    "  def size: () -> Integer",
    "",
    "  alias length size",
    "",
    "  alias count size",
    "",
    "  def empty?: () -> bool",
    "",
    "  def to_a: () -> Array[A]",
    "",
    "  def to_set: () -> self",
    "",
    "  def freeze: () -> self",
    "",
    "  def inspect: () -> String",
    "",
    "  alias to_s inspect",
    "end",
    "",
    "module Enumerable[unchecked out Elem, out Return]",
    "  def to_set: () -> Set[Elem]",
    "end"]

end Bundled

end RubySig
