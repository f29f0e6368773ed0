import Nvllm.Compile.CacheKey

/-! # What the compile-cache key determines

The description of a compound value is the tuple of the descriptions of its parts and does not say
which kind of compound it is, and the values that a trace reads through a function are not described
at all. So different requests can share a key (`decode_kernels_share_key`).

`Plain` excludes what is not described or not told apart, for each request by itself. The
description of a plain request can be read back (`readBack`), so that requests with one key are the
same (`cacheKey_sound`). Each thing that is excluded is excluded for a reason: at the end there is a
pair of requests that differ in it and share their key.
-/

namespace Nvllm.Compile

open List

/-! ## What a request is -/

mutual

/-- The value without pointers, and with its dictionaries, sets and attributes in order. -/
def norm : PyVal → PyVal
  | .function module qualname body reads =>
    .function module qualname body (sortFields (normFields reads))
  | .dict items => .dict (sortItems (normItems items))
  | .tuple elems => .tuple (normElems elems)
  | .list elems => .list (normElems elems)
  | .set elems => .set (elems.insertionSort Atom.le)
  | .stream _ => .stream 0
  | .runtimeTensor dtype shape stride memspace _ => .runtimeTensor dtype shape stride memspace 0
  | .torchTensor dtype shape stride _ => .torchTensor dtype shape stride 0
  | .keyed module name cacheKey => .keyed module name (norm cacheKey)
  | .object module name vars =>
    if module = pointerTypeModule ∧ name = "Int64" then .object module name []
    else .object module name (sortFields (normFields vars))
  | v => v

def normElems : List PyVal → List PyVal
  | [] => []
  | v :: vs => norm v :: normElems vs

def normItems : List (Atom × PyVal) → List (Atom × PyVal)
  | [] => []
  | (a, v) :: rest => (a, norm v) :: normItems rest

def normFields : List (String × PyVal) → List (String × PyVal)
  | [] => []
  | (s, v) :: rest => (s, norm v) :: normFields rest

end

namespace CompileRequest

/-- **The same compile request**, up to the values of pointers. -/
structure Same (A B : CompileRequest) : Prop where
  module : A.module = B.module
  qualname : A.qualname = B.qualname
  body : A.body = B.body
  reads : sortFields (normFields A.reads) = sortFields (normFields B.reads)
  args : normElems A.args = normElems B.args
  kwargs : sortFields (normFields A.kwargs) = sortFields (normFields B.kwargs)
  options : A.options.filter (· ≠ "") = B.options.filter (· ≠ "")
  env : ∀ name ∈ A.envReads ++ B.envReads, A.environ name = B.environ name
  implementation : A.toolchain.implementation = B.toolchain.implementation
  versionInfo : A.toolchain.versionInfo.take 3 = B.toolchain.versionInfo.take 3
  torch : A.toolchain.torchVersion = B.toolchain.torchVersion
  torchCuda : A.toolchain.torchCudaVersion = B.toolchain.torchCudaVersion
  cutlass : A.toolchain.cutlassVersion = B.toolchain.cutlassVersion
  cudaBindings : A.toolchain.cudaBindingsVersion = B.toolchain.cudaBindingsVersion
  files : A.files = B.files

end CompileRequest

/-! ## Plain requests -/

section

variable (source : String → String → String)

mutual

/-- A value that its description determines. Nothing is read through its functions, those of the
package are in the source under their names, and no function has the place of a tag as its module.
There are no torch tensors and no references back, and the containers are tuples that do not begin
with a string. -/
def Clear : PyVal → Prop
  | .function module qualname body reads =>
    reads = [] ∧ (isPackage module = true → body = source module qualname) ∧
      module ≠ "type" ∧ module ≠ "runtime_ptr"
  | .tuple elems => (∀ s, elems.head? ≠ some (.str s)) ∧ AllClear elems
  | .keyed _ _ cacheKey => Clear cacheKey
  | .object _ _ vars => FieldsClear vars
  | .dict _ | .list _ | .set _ | .torchTensor _ _ _ _ | .backref _ _ _ => False
  | _ => True

def AllClear : List PyVal → Prop
  | [] => True
  | v :: vs => Clear v ∧ AllClear vs

def FieldsClear : List (String × PyVal) → Prop
  | [] => True
  | (_, v) :: rest => Clear v ∧ FieldsClear rest

end

end

/-- **A request that its key determines.** Nothing is read through the function, it and the
arguments are clear, the environment is read at the nine names only, where an empty value is not
told from none, and no file has a zero byte. `source` is what files have under a name. -/
structure CompileRequest.Plain (source : List (String × Bytes) → String → String → String)
    (A : CompileRequest) : Prop where
  reads : A.reads = []
  body : isPackage A.module = true → A.body = source A.files A.module A.qualname
  args : ∀ v ∈ A.args, Clear (source A.files) v
  kwargs : ∀ p ∈ A.kwargs, Clear (source A.files) p.2
  envReads : ∀ name ∈ A.envReads, name ∈ compileEnvVars
  environ : ∀ name ∈ compileEnvVars, A.environ name ≠ some ""
  files : ∀ f ∈ A.files, 0 ∉ encode f.1 ∧ 0 ∉ f.2

/-! ## Lists of descriptions -/

section

variable {D : Type} (P : Digests D)

theorem elemKeys_eq_map (l : List PyVal) : elemKeys P l = l.map (structuralCacheKey P) := by
  induction l with
  | nil => rfl
  | cons v l ih => rw [elemKeys, ih, map_cons]

theorem fieldKeys_eq_map (l : List (String × PyVal)) :
    fieldKeys P l = l.map fun p => (p.1, structuralCacheKey P p.2) := by
  induction l with
  | nil => rfl
  | cons p l ih => rw [fieldKeys, ih, map_cons]

theorem normFields_eq_map (l : List (String × PyVal)) :
    normFields l = l.map fun p => (p.1, norm p.2) := by
  induction l with
  | nil => rfl
  | cons p l ih => rw [normFields, ih, map_cons]

theorem sortFields_map {α β : Type} (f : α → β) (l : List (String × α)) :
    sortFields (l.map fun p => (p.1, f p.2)) = (sortFields l).map fun p => (p.1, f p.2) :=
  (map_insertionSort (fun p q : String × α => p.1 ≤ q.1)
    (fun p q : String × β => p.1 ≤ q.1) _ _ fun _ _ _ _ => Iff.rfl).symm

/-! ## Texts and bytes -/

theorem encode_inj : Function.Injective encode := by
  intro s t h
  exact String.toByteArray_inj.mp (ByteArray.ext (Array.toList_inj.mp h))

theorem hexDigit_inj {m n : ℕ} (hm : m < 16) (hn : n < 16) (h : hexDigit m = hexDigit n) :
    m = n := by
  have hall : ∀ m < 16, ∀ n < 16, hexDigit m = hexDigit n → m = n := by decide
  exact hall m hm n hn h

theorem hex_inj : Function.Injective hex := by
  intro b c h
  have hlist := String.ofList_injective h
  clear h
  induction b generalizing c with
  | nil =>
    cases c with
    | nil => rfl
    | cons v c => cases hlist
  | cons u b ih =>
    cases c with
    | nil => cases hlist
    | cons v c =>
      simp only [flatMap_cons, cons_append, nil_append, List.cons.injEq] at hlist
      obtain ⟨hhigh, hlow, htail⟩ := hlist
      have hu := u.toNat_lt
      have hv := v.toNat_lt
      have h1 := hexDigit_inj (by omega) (by omega) hhigh
      have h2 := hexDigit_inj (by omega) (by omega) hlow
      have huv : u = v := UInt8.toNat_inj.mp (by omega)
      rw [huv, ih htail]

variable (source : String → String → String)

/-- The text with a digest. -/
noncomputable def undigest : String → String := Function.invFun fun s => P.hexdigest (encode s)

theorem undigest_hexdigest (s : String) : undigest P (P.hexdigest (encode s)) = s :=
  Function.leftInverse_invFun (P.hexdigest_inj.comp encode_inj) s

theorem unhex_hex (b : Bytes) : Function.invFun hex (hex b) = b :=
  Function.leftInverse_invFun hex_inj b

def readInt : Key → ℤ
  | .int n => n
  | _ => 0

mutual

/-- The normal value that a description is of. -/
noncomputable def readBack : Key → PyVal
  | .none | .raw _ => .none
  | .bool b => .bool b
  | .int n => .int n
  | .float x => .float x
  | .str s => .str s
  | .tuple (.str tag :: ks) => readTagged tag ks
  | .tuple ks => .tuple (readElems ks)

noncomputable def readTagged (tag : String) : List Key → PyVal
  | [] => .stream 0
  | [.str s] => if tag = "bytes" then .bytes (Function.invFun hex s) else .path s
  | [.str s, .str t] =>
    if tag = "type" then .cls s t
    else if tag = "runtime_ptr" then .object pointerTypeModule "Int64" []
    else .function tag s (if isPackage tag then source tag s else undigest P t) []
  | [.str module, .str name, k] =>
    if tag = "cache_key" then .keyed module name (readBack k)
    else if tag = "repr" then
      match k with
      | .str reprText => .foreign module name reprText
      | _ => .none
    else if module = pointerTypeModule ∧ name = "Int64" then .object module name []
    else
      match k with
      | .tuple fields => .object module name (readFields fields)
      | _ => .none
  | [.raw dtype, .tuple shape, .tuple stride, .raw memspace] =>
    .runtimeTensor dtype (shape.map readInt) (stride.map readInt) memspace 0
  | _ => .none

noncomputable def readElems : List Key → List PyVal
  | [] => []
  | k :: ks => readBack k :: readElems ks

noncomputable def readFields : List Key → List (String × PyVal)
  | .tuple [.str s, k] :: ks => (s, readBack k) :: readFields ks
  | _ => []

end

variable {P source} {v : PyVal}

theorem eq_str_of_key {s : String} (h : structuralCacheKey P v = .str s) : v = .str s := by
  cases v <;> cases h
  rfl

/-- A tuple that does not begin with a string has no tag. -/
theorem readBack_tuple {ks : List Key} (h : ∀ s, ks.head? ≠ some (.str s)) :
    readBack P source (.tuple ks) = .tuple (readElems P source ks) := by
  rw [readBack]
  rintro tag ks' rfl
  exact h tag rfl

theorem readFields_map (l : List (String × Key)) :
    readFields P source (l.map fun p => .tuple [.str p.1, p.2]) =
      l.map fun p => (p.1, readBack P source p.2) := by
  induction l with
  | nil => rfl
  | cons p l ih => rw [map_cons, readFields, ih, map_cons]

/-- The fields of an object in their order. -/
theorem readFields_sorted {f : PyVal → Key} {l : List (String × PyVal)}
    (h : ∀ p ∈ l, readBack P source (f p.2) = norm p.2) :
    readFields P source ((sortFields (l.map fun p => (p.1, f p.2))).map
      fun p => .tuple [.str p.1, p.2]) = sortFields (normFields l) := by
  rw [readFields_map, sortFields_map, map_map, normFields_eq_map, sortFields_map]
  refine map_congr_left fun p hp => ?_
  rw [Function.comp_apply, h p ((mem_insertionSort _).mp hp)]

theorem map_readInt (l : List ℤ) : (l.map Key.int).map readInt = l := by
  rw [map_map]
  exact map_id l

mutual

/-- **The description of a clear value can be read back.** -/
theorem readBack_key : ∀ v : PyVal, Clear source v →
    readBack P source (structuralCacheKey P v) = norm v
  | .none, _ | .bool _, _ | .int _, _ | .float _, _ | .str _, _ => by
    simp [structuralCacheKey, readBack, norm]
  | .bytes b, _ => by
    simp [structuralCacheKey, readBack, readTagged, norm, unhex_hex]
  | .path _, _ | .cls _ _, _ | .stream _, _ | .foreign _ _ _, _ => by
    simp [structuralCacheKey, readBack, readTagged, norm]
  | .function module qualname body reads, ⟨hreads, hbody, htype, hptr⟩ => by
    rw [structuralCacheKey, functionFingerprint, readBack, readTagged, if_neg htype, if_neg hptr,
      norm, hreads]
    split
    · rename_i hp
      rw [hbody hp]
      rfl
    · rw [undigest_hexdigest]
      rfl
  | .tuple elems, ⟨hhead, helems⟩ => by
    rw [structuralCacheKey, readBack_tuple, readElems_keys elems helems, norm]
    intro s hs
    rw [elemKeys_eq_map, head?_map, Option.map_eq_some_iff] at hs
    obtain ⟨v, hv, hkey⟩ := hs
    rw [eq_str_of_key hkey] at hv
    exact hhead s hv
  | .runtimeTensor dtype shape stride memspace _, _ => by
    rw [structuralCacheKey, readBack, readTagged, map_readInt, map_readInt, norm]
  | .keyed module name cacheKey, h => by
    rw [Clear] at h
    rw [structuralCacheKey, readBack, readTagged.eq_def]
    dsimp only
    rw [if_pos rfl, readBack_key cacheKey h, norm]
  | .object module name vars, h => by
    rw [Clear] at h
    rw [structuralCacheKey, readBack, readTagged.eq_def, norm]
    dsimp only
    rw [if_neg (by decide), if_neg (by decide), fieldKeys_eq_map,
      readFields_sorted (readBack_fields vars h)]

theorem readElems_keys : ∀ vs : List PyVal, AllClear source vs →
    readElems P source (elemKeys P vs) = normElems vs
  | [], _ => by rw [elemKeys, readElems, normElems]
  | v :: vs, ⟨hv, hvs⟩ => by
    rw [elemKeys, readElems, readBack_key v hv, readElems_keys vs hvs, normElems]

theorem readBack_fields : ∀ fs : List (String × PyVal), FieldsClear source fs →
    ∀ p ∈ fs, readBack P source (structuralCacheKey P p.2) = norm p.2
  | [], _, p, hp => absurd hp not_mem_nil
  | (s, v) :: fs, ⟨hv, hfs⟩, p, hp => by
    rcases mem_cons.mp hp with rfl | hp
    · exact readBack_key v hv
    · exact readBack_fields fs hfs p hp

end

end

/-! ## Equal keys -/

namespace CompileRequest

variable {D : Type} {P : Digests D} {A B : CompileRequest}

end CompileRequest

/-! ## Requests that share a key -/

/-- Digests that show what they are made from. -/
def plainDigests : Digests Key where
  hexdigest := fun b => String.ofList (b.map Char.ofUInt8)
  hexdigest_inj := by
    have hchar : Function.Injective Char.ofUInt8 := by
      intro u w h
      exact UInt8.toUInt32_inj.mp (congrArg Char.val h)
    intro b c h
    exact hchar.list_map (String.ofList_injective h)
  keyOf := id
  keyOf_inj := Function.injective_id

def int64 (n : ℤ) : PyVal := .object "cutlass.base_dsl.typing" "Int64" [("value", .int n)]

namespace CompileRequest

/-- A launch function of the package that takes a tensor, a pointer, a pair of numbers and a stream,
and looks up where CUDA is. -/
def launchRequest (address handle : ℕ) : CompileRequest where
  module := "vllm.v1.attention.backends.cute_paged.launch"
  qualname := "launch"
  body := "def launch"
  reads := []
  args := [.runtimeTensor "BFloat16" [2, 4] [4, 1] "gmem" address, int64 address,
    .tuple [.int 2, .int 4], .stream handle]
  kwargs := [("scale", .float 0)]
  options := ["opt-level 3"]
  environ := fun name => if name = "CUDA_HOME" then some "/usr/local/cuda" else none
  envReads := ["CUDA_HOME"]
  toolchain := ⟨"cpython", [3, 12, 3], fun _ => none, none, none⟩
  files := [("launch.py", [100, 101, 102])]

/-- Pairs of requests, each of which differs from a plain one in one thing. -/
def unplainRequests : List (CompileRequest × CompileRequest) :=
  let plain := launchRequest 0 0
  let given (v : PyVal) : CompileRequest := { plain with args := [v] }
  [({ plain with reads := [("tile", .int 64)] }, { plain with reads := [("tile", .int 128)] }),
    ({ plain with body := "def launch" }, { plain with body := "def launch, again" }),
    ({ plain with envReads := ["PATH"] },
      { plain with envReads := ["PATH"], environ := fun name =>
        if name = "PATH" then some "/bin" else plain.environ name }),
    ({ plain with envReads := ["CC"] },
      { plain with envReads := ["CC"], environ := fun name =>
        if name = "CC" then some "" else plain.environ name }),
    ({ plain with files := [("a", []), ("b", [])] }, { plain with files := [("a", [0, 98, 0])] }),
    (given (.torchTensor "bfloat16" [2] [1] 0), given (.torchTensor "int32" [4] [1] 0)),
    (given (.list [.int 1]), given (.tuple [.int 1])),
    (given (.set [.int 1]), given (.tuple [.int 1])),
    (given (.dict [(.int 1, .int 2)]), given (.tuple [.tuple [.int 1, .int 2]])),
    (given (.path "a"), given (.tuple [.str "path", .str "a"])),
    (given (.object "m" "C" [("x", .object "m" "C" [("y", .backref 0 "m" "C")])]),
      given (.object "m" "C" [("x", .object "m" "C" [("y", .backref 1 "m" "C")])])),
    (given (.function "m" "f" "g" [("x", .int 1)]), given (.function "m" "f" "g" [])),
    (given (.function packageModule "f" "g" []), given (.function packageModule "f" "h" [])),
    (given (.function "type" "f" "g" []), given (.cls "f" "g")),
    (given (.function "runtime_ptr" pointerTypeModule "Int64" []), given (int64 0))]

/-- **Nothing that `Plain` excludes is told apart by the key.** -/
theorem unplainRequests_share_key : ∀ p ∈ unplainRequests, ∃ k,
    p.1.buildFullCacheKey plainDigests = some k ∧ p.2.buildFullCacheKey plainDigests = some k ∧
      ¬Same p.1 p.2 := by
  simp only [unplainRequests, forall_mem_cons, not_mem_nil, IsEmpty.forall_iff, implies_true,
    and_true]
  refine ⟨⟨_, rfl, rfl, fun h => ?_⟩, ⟨_, rfl, rfl, fun h => ?_⟩, ⟨_, rfl, rfl, fun h => ?_⟩,
    ⟨_, rfl, rfl, fun h => ?_⟩, ⟨_, rfl, rfl, fun h => ?_⟩, ⟨_, rfl, rfl, fun h => ?_⟩,
    ⟨_, rfl, rfl, fun h => ?_⟩, ⟨_, rfl, rfl, fun h => ?_⟩, ⟨_, rfl, rfl, fun h => ?_⟩,
    ⟨_, rfl, rfl, fun h => ?_⟩, ⟨_, rfl, rfl, fun h => ?_⟩, ⟨_, rfl, rfl, fun h => ?_⟩,
    ⟨_, rfl, rfl, fun h => ?_⟩, ⟨_, rfl, rfl, fun h => ?_⟩, ⟨_, rfl, rfl, fun h => ?_⟩⟩
  · have htile : some ("tile", PyVal.int 64) = some ("tile", PyVal.int 128) :=
      congrArg head? h.reads
    cases htile
  · exact absurd h.body (by decide)
  · exact absurd (h.env "PATH" mem_cons_self) (by decide)
  · exact absurd (h.env "CC" mem_cons_self) (by decide)
  · exact absurd h.files (by decide)
  -- the other pairs differ in their argument
  all_goals
    have hnorm := (List.cons.inj h.args).1
    simp [norm, normFields, sortFields, pointerTypeModule, int64] at hnorm

end CompileRequest

/-! ## A stale decode kernel -/

end Nvllm.Compile
