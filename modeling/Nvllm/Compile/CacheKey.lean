import Mathlib.Data.Int.Notation
import Mathlib.Data.List.Sort
import Mathlib.Order.Lex
import Mathlib.Tactic.Common

/-! # The key of the compile cache

`_cached_compile` looks a compiled kernel up under a digest of a description of the compile
request: the function, the files of the package, the toolchain, the arguments, the compile options
and some environment variables. The description of an argument is made by a recursion over Python
values with a case for each kind of value.

A Python value is a tree here. A reference from inside an object back to an object around it is
`backref`, so that a cyclic object has a finite tree. Digests are parameters that are injective.
-/

namespace Nvllm.Compile

abbrev Bytes := List UInt8

/-- Keys of dictionaries and elements of sets. -/
inductive Atom
  | int (n : ℤ)
  | str (s : String)
  deriving DecidableEq

/-- Integers come first; Python would raise where an integer meets a string. -/
def Atom.le : Atom → Atom → Prop
  | .int m, .int n => m ≤ n
  | .int _, .str _ => True
  | .str _, .int _ => False
  | .str s, .str t => s ≤ t

instance : DecidableRel Atom.le
  | .int m, .int n => inferInstanceAs (Decidable (m ≤ n))
  | .int _, .str _ => .isTrue trivial
  | .str _, .int _ => .isFalse id
  | .str s, .str t => inferInstanceAs (Decidable (s ≤ t))

/-- `sorted` on pairs with different first components. -/
def sortItems {α : Type} (items : List (Atom × α)) : List (Atom × α) :=
  items.insertionSort fun p q => p.1.le q.1

def sortFields {α : Type} (fields : List (String × α)) : List (String × α) :=
  fields.insertionSort fun p q => p.1 ≤ q.1

/-- `sorted` raises when it has to compare a string with an integer. -/
def mixed (atoms : List Atom) : Bool :=
  atoms.any (fun a => match a with | .int _ => true | .str _ => false) &&
    atoms.any (fun a => match a with | .int _ => false | .str _ => true)

/-- A Python value that may be part of a compile request.

* `function`: `body` is the source text, or a text of the code object where there is no source;
  `reads` are the values from outside that a trace of the function reads: fields of the object a
  method is bound to, closure cells.
* `keyed`: an object with a `__cache_key__`.
* `object`: an object with a `__dict__`; `foreign`: one without. -/
inductive PyVal
  | none
  | bool (b : Bool)
  | int (n : ℤ)
  | float (bits : UInt64)
  | str (s : String)
  | bytes (b : Bytes)
  | path (s : String)
  | function (module qualname body : String) (reads : List (String × PyVal))
  | cls (module qualname : String)
  | dict (items : List (Atom × PyVal))
  | tuple (elems : List PyVal)
  | list (elems : List PyVal)
  | set (elems : List Atom)
  | stream (handle : ℕ)
  | runtimeTensor (dtype : String) (shape stride : List ℤ) (memspace : String) (address : ℕ)
  | torchTensor (dtype : String) (shape stride : List ℤ) (address : ℕ)
  | keyed (module name : String) (cacheKey : PyVal)
  | backref (level : ℕ) (module name : String)
  | object (module name : String) (vars : List (String × PyVal))
  | foreign (module name reprText : String)

/-- What descriptions are made of; `raw` is an object that is put in as it is. -/
inductive Key
  | none
  | bool (b : Bool)
  | int (n : ℤ)
  | float (bits : UInt64)
  | str (s : String)
  | raw (text : String)
  | tuple (elems : List Key)

def Atom.key : Atom → Key
  | .int n => .int n
  | .str s => .str s

/-- Digests. `keyOf` is the digest of the `repr` of the whole description. -/
structure Digests (D : Type) where
  hexdigest : Bytes → String
  hexdigest_inj : Function.Injective hexdigest
  keyOf : Key → D
  keyOf_inj : Function.Injective keyOf

def encode (s : String) : Bytes := s.toByteArray.data.toList

def packageModule : String := "vllm.v1.attention.backends.cute_paged"

def isPackage (module : String) : Bool := packageModule.toList.isPrefixOf module.toList

def hexDigit (n : ℕ) : Char := "0123456789abcdef".toList.getD n '0'

/-- `bytes.hex`. -/
def hex (b : Bytes) : String :=
  String.ofList (b.flatMap fun u => [hexDigit (u.toNat / 16), hexDigit (u.toNat % 16)])

section

variable {D : Type} (P : Digests D)

/-- **`_function_fingerprint`**: a function of the package is only named. -/
def functionFingerprint (module qualname body : String) : Key :=
  .tuple [.str module, .str qualname,
    .str (if isPackage module then "cute_paged" else P.hexdigest (encode body))]

mutual

/-- **`_structural_cache_key`** -/
def structuralCacheKey : PyVal → Key
  | .none => .none
  | .bool b => .bool b
  | .int n => .int n
  | .float x => .float x
  | .str s => .str s
  | .bytes b => .tuple [.str "bytes", .str (hex b)]
  | .path s => .tuple [.str "path", .str s]
  | .function module qualname body _ => functionFingerprint P module qualname body
  | .cls module qualname => .tuple [.str "type", .str module, .str qualname]
  | .dict items => .tuple ((sortItems (itemKeys items)).map fun (a, k) => .tuple [a.key, k])
  | .tuple elems => .tuple (elemKeys elems)
  | .list elems => .tuple (elemKeys elems)
  | .set elems => .tuple ((elems.insertionSort Atom.le).map Atom.key)
  | .stream _ => .tuple [.str "cuda_stream"]
  | .runtimeTensor dtype shape stride memspace _ =>
    .tuple [.str "runtime_tensor", .raw dtype, .tuple (shape.map .int),
      .tuple (stride.map .int), .raw memspace]
  -- a torch tensor has a `__dict__` and nothing in it
  | .torchTensor _ _ _ _ => .tuple [.str "object", .str "torch", .str "Tensor", .tuple []]
  | .keyed module name cacheKey =>
    .tuple [.str "cache_key", .str module, .str name, structuralCacheKey cacheKey]
  | .backref _ module name => .tuple [.str "cycle", .str module, .str name]
  | .object module name vars =>
    .tuple [.str "object", .str module, .str name,
      .tuple ((sortFields (fieldKeys vars)).map fun (s, k) => .tuple [.str s, k])]
  | .foreign module name reprText =>
    .tuple [.str "repr", .str module, .str name, .str reprText]

def elemKeys : List PyVal → List Key
  | [] => []
  | v :: vs => structuralCacheKey v :: elemKeys vs

def itemKeys : List (Atom × PyVal) → List (Atom × Key)
  | [] => []
  | (a, v) :: rest => (a, structuralCacheKey v) :: itemKeys rest

def fieldKeys : List (String × PyVal) → List (String × Key)
  | [] => []
  | (s, v) :: rest => (s, structuralCacheKey v) :: fieldKeys rest

end

end

mutual

/-- The description of the value raises in `sorted`. -/
def raises : PyVal → Bool
  | .dict items => mixed (items.map Prod.fst) || itemsRaise items
  | .tuple elems => elemsRaise elems
  | .list elems => elemsRaise elems
  | .set elems => mixed elems
  | .keyed _ _ cacheKey => raises cacheKey
  | .object _ _ vars => fieldsRaise vars
  | _ => false

def elemsRaise : List PyVal → Bool
  | [] => false
  | v :: vs => raises v || elemsRaise vs

def itemsRaise : List (Atom × PyVal) → Bool
  | [] => false
  | (_, v) :: rest => raises v || itemsRaise rest

def fieldsRaise : List (String × PyVal) → Bool
  | [] => false
  | (_, v) :: rest => raises v || fieldsRaise rest

end

def pointerTypeModule : String := "cutlass.base_dsl.typing"

def isRuntimePointerValue : PyVal → Bool
  | .object module name _ => module = pointerTypeModule && name = "Int64"
  | _ => false

def canonicalizeArg {D : Type} (P : Digests D) (v : PyVal) : Key :=
  if isRuntimePointerValue v then
    .tuple [.str "runtime_ptr", .str pointerTypeModule, .str "Int64"]
  else structuralCacheKey P v

def argRaises (v : PyVal) : Bool := !isRuntimePointerValue v && raises v

/-! ## The request -/

/-- What the versions are taken from: package metadata and attributes of the modules that can be
imported. -/
structure Toolchain where
  implementation : String
  versionInfo : List ℤ
  distribution : String → Option String
  torchModule : Option (Option String × Option String)
  cutlassModule : Option (Option String)

namespace Toolchain

variable (t : Toolchain)

def distributionVersion (name : String) : String := (t.distribution name).getD ""

def torchVersion : String :=
  if t.distributionVersion "torch" = "" then
    (t.torchModule.bind Prod.fst).getD ""
  else t.distributionVersion "torch"

def torchCudaVersion : String := (t.torchModule.bind Prod.snd).getD ""

def cutlassVersion : String :=
  if t.distributionVersion "nvidia-cutlass-dsl" = "" then
    if t.distributionVersion "cutlass" = "" then (t.cutlassModule.bind id).getD ""
    else t.distributionVersion "cutlass"
  else t.distributionVersion "nvidia-cutlass-dsl"

def cudaBindingsVersion : String := t.distributionVersion "cuda-bindings"

/-- `_runtime_toolchain_key` -/
def runtimeToolchainKey : Key :=
  .tuple [
    .tuple [.str "python", .str t.implementation, .tuple ((t.versionInfo.take 3).map .int)],
    .tuple [.str "torch", .str t.torchVersion],
    .tuple [.str "torch_cuda", .str t.torchCudaVersion],
    .tuple [.str "cutlass_dsl", .str t.cutlassVersion],
    .tuple [.str "cuda_bindings", .str t.cudaBindingsVersion]]

end Toolchain

def compileEnvVars : List String :=
  ["CC", "CXX", "CUDA_HOME", "CUDA_PATH", "CUDA_TOOLKIT_PATH", "CUDACXX", "CUTE_DSL_ARCH",
    "NVCC_APPEND_FLAGS", "NVCC_PREPEND_FLAGS"]

/-- A call of `_cached_compile`: the function and its arguments, the serialised compile options,
the process environment with the names that are read while tracing, the toolchain and the files of
the package in the order of their paths. -/
structure CompileRequest where
  module : String
  qualname : String
  body : String
  reads : List (String × PyVal)
  args : List PyVal
  kwargs : List (String × PyVal)
  options : List String
  environ : String → Option String
  envReads : List String
  toolchain : Toolchain
  files : List (String × Bytes)

namespace CompileRequest

variable {D : Type} (P : Digests D) (A : CompileRequest)

def compileEnvironmentKey : Key :=
  .tuple (compileEnvVars.map fun name => .tuple [.str name, .str ((A.environ name).getD "")])

/-- What `_tree_fingerprint_cached` feeds to the digest. -/
def fileStream : Bytes :=
  A.files.flatMap fun (path, contents) => encode path ++ [0] ++ contents ++ [0]

def packageFingerprint : Key := .str (P.hexdigest A.fileStream)

def structuralArgsCacheKey : Key :=
  .tuple [.str "ptr_canonical_v1", .tuple (A.args.map (canonicalizeArg P)),
    .tuple ((sortFields (A.kwargs.map fun (k, v) => (k, canonicalizeArg P v))).map
      fun (k, v) => .tuple [.str k, v])]

def compileOptionsCacheKey : Key := .tuple ((A.options.filter (· ≠ "")).map .str)

def buildFullCachePayload : Key :=
  .tuple [.str "nvllm_cute_compile_cache_v3_dedup_pkg_fp",
    functionFingerprint P A.module A.qualname A.body,
    A.packageFingerprint P,
    A.toolchain.runtimeToolchainKey,
    A.structuralArgsCacheKey P,
    A.compileOptionsCacheKey,
    A.compileEnvironmentKey]

/-- **The cache key**, if the description does not raise. -/
def buildFullCacheKey : Option D :=
  if A.args.any argRaises || A.kwargs.any (fun p => argRaises p.2) then none
  else some (P.keyOf (A.buildFullCachePayload P))

end CompileRequest

end Nvllm.Compile
