import UniqysKit.MerklePatriciaTrie.Trie

/-!
# Proofs of trie entries

`merkle-proof.ts` and the parts of the trie that use it.  A proof is a program for a stack of bytes:
it loads bytes, and it replaces the last bytes of the stack by their hash.  It proves the bytes of its
first `Value` operation against what is on the stack in the end.

`MerklePatriciaTrie.prove` writes such a program along the path to a key, and `KeyValueProof` reads
the key and the value that a program proves.
-/

namespace UniqysKit

/-! ## The stack program -/

namespace MerkleProof

inductive Operation where
  | load (data : Bytes)
  | value (data : Bytes)
  | hash (consume : Int)
  deriving DecidableEq

namespace Operation

/-- The number of bytes an operation adds to the stack. -/
def size : Operation → Int
  | load data => data.length
  | value data => data.length
  | hash consume => -consume + 32

/-- What an operation makes of the stack. -/
def step (c : Crypto) (stack : Bytes) : Operation → Bytes
  | load data => stack ++ data
  | value data => stack ++ data
  | hash consume =>
      let start := (stack.length : Int) - consume
      let hash := Hash.fromData c (slice stack start stack.length)
      slice stack 0 start ++ hash.buffer

/-- A hash operation that consumes what was put on the stack last. -/
theorem step_hash (c : Crypto) (stack image : Bytes) :
    step c (stack ++ image) (hash image.length) = stack ++ (Hash.fromData c image).buffer := by
  have hstart : ((stack ++ image).length : Int) - image.length = stack.length := by
    simp
  simp only [step, hstart, slice, sliceIndex_zero, sliceIndex_length, List.take_length,
    List.drop_zero]
  simp [sliceIndex]

/-- The bytes of a `Value` operation. -/
def data? : Operation → Option Bytes
  | value data => some data
  | _ => none

end Operation

/-- The stack after some operations. -/
def run (c : Crypto) (operations : List Operation) (stack : Bytes) : Bytes :=
  operations.foldl (Operation.step c) stack

end MerkleProof

structure MerkleProof where
  operations : List MerkleProof.Operation
  deriving DecidableEq

namespace MerkleProof

def empty : MerkleProof := ⟨[]⟩

def load (proof : MerkleProof) (data : Bytes) : MerkleProof :=
  ⟨proof.operations ++ [.load data]⟩

def value (proof : MerkleProof) (data : Bytes) : MerkleProof :=
  ⟨proof.operations ++ [.value data]⟩

def resultSize (proof : MerkleProof) : Int := (proof.operations.map Operation.size).sum

def hash (proof : MerkleProof) : MerkleProof :=
  ⟨proof.operations ++ [.hash proof.resultSize]⟩

def append (proof tail : MerkleProof) : MerkleProof := ⟨proof.operations ++ tail.operations⟩

def values (proof : MerkleProof) : List Bytes := proof.operations.filterMap Operation.data?

/-- A turn of the loop of `optimize`, on `top` and `ops`. -/
def squash : Option Operation × List Operation → Operation → Option Operation × List Operation
  | (none, ops), op => (some op, ops)
  | (some (.load data), ops), .load data' => (some (.load (data ++ data')), ops)
  | (some top, ops), op => (some op, ops ++ [top])

def optimize (proof : MerkleProof) : MerkleProof :=
  let (top, ops) := proof.operations.foldl squash (none, [])
  ⟨ops ++ top.toList⟩

def calculate (c : Crypto) (proof : MerkleProof) : Bytes := run c proof.operations []

def verify (c : Crypto) (proof : MerkleProof) (expect : Hash) : Bool :=
  proof.calculate c = expect.buffer

end MerkleProof

/-! ## Proving a key -/

/-- What a child that is not followed adds to a proof. -/
def Child.load (c : Crypto) (child : Child) : List MerkleProof.Operation :=
  (child.hash c).toList.map fun hash => .load hash.buffer

/-- `Node.prove`. Where the key ends at a node without content, the source looks for a child with no
index, and throws. -/
def Node.prove (c : Crypto) (store : TrieStore) (node : Node) (key : Key) : Result MerkleProof :=
  let matchResult := Key.match node.keyPrefix key
  match matchResult.remain1, _h : matchResult.remain2, node.content with
  | [], [], some content => do
      let proof : MerkleProof := ⟨(List.finRange 16).flatMap fun i => (node.children i).load c⟩
      return (proof.value (← content.serialize)).hash
  | [], [], none => .error .typeError
  | [], letter :: rest, content =>
      match (node.children letter).dereference store with
      | some child => do
          let childProof ← prove c store (← child) rest
          let proof : MerkleProof := ⟨(List.finRange 16).flatMap fun i =>
            if i = letter then childProof.operations else (node.children i).load c⟩
          match content with
          | some content => return (proof.load (← content.serialize)).hash
          | none => return proof.hash
      | none => .error ⟨"key does not exist"⟩
  | _ :: _, _, _ => .error ⟨"key does not exist"⟩
  termination_by key.length
  decreasing_by exact Key.length_remain2_lt _h

structure KeyValueProof where
  proof : MerkleProof
  key : Bytes
  value : Bytes
  deriving DecidableEq

namespace KeyValueProof

/-- The constructor, which reads the first value; without one there is nothing to read from. -/
def new (proof : MerkleProof) : Result KeyValueProof :=
  match proof.values with
  | [] => .error .typeError
  | value :: _ => do
      let (content, _) ← Content.deserialize value
      return ⟨proof, content.key, content.value⟩

def verify (c : Crypto) (kv : KeyValueProof) (expect : Hash) : Bool := kv.proof.verify c expect

end KeyValueProof

def MerklePatriciaTrie.prove (c : Crypto) (key : Bytes) : Action MerklePatriciaTrie KeyValueProof := do
  let root ← root
  let proof ← reading fun store => root.prove c store (Key.bufferToKey key)
  Action.fromResult (KeyValueProof.new proof.optimize)

end UniqysKit
