import QCFuse.Source.BlendRequest

/-!
# The layers of ATTN selection

Which layers a QCOMPUTE loads and collects for the selection after it, and which ones the selection
stacks. Layer ids are the integers of the request.
-/

set_option autoImplicit false

namespace QCFuse.Source

/-- What the layers are derived from, in a QCOMPUTE and in the `DO_BLEND` after it. -/
structure SelectionArgs where
  numLayers : Nat
  criticalLayers : List Int
  attnStart : Int
  attnEnd : Int
  isContextblend : Bool
  contextSource : ContextSource
  deriving DecidableEq, Repr

namespace SelectionArgs

variable (args : SelectionArgs)

/-- `attn_end if attn_end != -1 else num_hidden_layers`. -/
def attnEndVal : Int := if args.attnEnd ≠ -1 then args.attnEnd else args.numLayers

/-- `max(critical_layers) + 1 if critical_layers else None`. -/
def qcomputeEnd : Option Int := args.criticalLayers.max?.map (· + 1)

/-- `qcompute_end or attn_end`: where the model stops. -/
def endLayer : Int :=
  match args.qcomputeEnd with
  | some last => if last ≠ 0 then last else args.attnEndVal
  | none => args.attnEndVal

/-- `_selection_chunk_layers()`. -/
def selectionChunkLayers : List Int :=
  if args.criticalLayers ≠ [] then args.criticalLayers
  else if args.attnStart = 0 ∧ args.attnEndVal = args.numLayers then pyRange 0 args.numLayers
  else [args.attnStart]

/-- The layers for `HackBlendKVPool` of the loader that `prepare_for_extend` starts, task B or that of the
query cache. -/
def selectionLoader : Py (List Int) :=
  if args.isContextblend then
    match args.contextSource with
    | .query =>
      if args.criticalLayers = [] then
        .error (.valueError ("context_cache_source='query' requires critical_layers so critical KV can be " ++
          "loaded from query_cache"))
      else .ok args.criticalLayers
    | .none => .ok args.selectionChunkLayers
  else .ok args.selectionChunkLayers

/-- `should_collect_q(layer_id)` of a QCOMPUTE. -/
def shouldCollectQ (layerId : Int) : Bool :=
  if args.criticalLayers ≠ [] then layerId ∈ args.criticalLayers
  else if args.attnEndVal < 0 then args.attnStart ≤ layerId
  else args.attnStart ≤ layerId ∧ layerId < args.attnEndVal

/-- `len(q_buffer)` after the layers up to `end_layer`, and `len(query_k_buffer)`: `put_q` fills up to the
layer it stores. -/
def qBufferLen : Nat :=
  ((pyRange 0 (min args.endLayer args.numLayers)).filter args.shouldCollectQ).foldl
    (fun len layerId => max len (layerId + 1).toNat) 0

/-- The places of `xs[start:stop]` in a list of `len` entries. -/
def slicePlaces (len : Nat) (start stop : Int) : List Int :=
  let place := fun i : Int => max 0 (min (if i < 0 then i + len else i) len)
  pyRange (place start) (place stop)

/-- The layers whose cached K is stacked: `get_kv_layers` or `get_all_kv`. -/
def stackedKLayers : List Int :=
  if args.criticalLayers ≠ [] then args.criticalLayers
  else slicePlaces args.numLayers args.attnStart args.attnEndVal

/-- The layers whose Q and query K are stacked: `get_q_layers` or `get_all_q`. -/
def stackedQLayers : List Int :=
  if args.criticalLayers ≠ [] then args.criticalLayers
  else slicePlaces args.qBufferLen args.attnStart args.attnEndVal

end SelectionArgs

/-- What a request that names layers of the model asks for. -/
def BlendRequest.selectionArgs (req : BlendRequest) (numLayers : Nat) (source : ContextSource) : SelectionArgs where
  numLayers := numLayers
  criticalLayers := req.criticalLayers.map fun id : Nat => (id : Int)
  attnStart := req.attnStart
  attnEnd := (req.attnEnd.map fun n : Nat => (n : Int)).getD (-1)
  isContextblend := req.isContextblend
  contextSource := source

end QCFuse.Source
