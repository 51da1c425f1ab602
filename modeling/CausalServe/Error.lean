import CausalServe.Number.Decimal

/-! Everything that can go wrong, by cause. `Error.kind` is the coarse class that a failed request
reports, and `Error.message` holds all wording. Each family of causes ends in `reported`, for a
fault that a caller states in its own words. -/

namespace CausalServe

inductive ErrorKind
  | shapeMismatch
  | unsupportedQuantization
  | cacheOverflow
  | numericInstability
  | cancelled
  | timeout
  | invalidRequest
  | internal
deriving DecidableEq, Repr

namespace ErrorKind

def all : List ErrorKind :=
  [shapeMismatch, unsupportedQuantization, cacheOverflow, numericInstability, cancelled, timeout,
    invalidRequest, internal]

def name : ErrorKind → String
  | shapeMismatch => "ShapeMismatch"
  | unsupportedQuantization => "UnsupportedQuantization"
  | cacheOverflow => "CacheOverflow"
  | numericInstability => "NumericInstability"
  | cancelled => "Cancelled"
  | timeout => "Timeout"
  | invalidRequest => "InvalidRequest"
  | internal => "Internal"

end ErrorKind

/-- A quantized payload that no decoder accepts. -/
inductive QuantFault
  | scale (value : Float32)
  | code (value : Int) (encoding : String)
  | nonFinite (block row : Nat)
  | rank (name : String) (shape : List Nat)
  | packedOperand
  | reported (detail : String)

/-- A claim on cache memory that cannot be met. -/
inductive CacheFault
  | slotFull (slot capacity : Nat)
  | overBudget (slot delta used budget : Nat)
  | beyondBudget (request bytes : Nat) (budget : Option Nat)
  | beyondCapacity (request needed slot capacity : Nat)
  | evictedFor (request : Nat)
  | reported (detail : String)

/-- Weights that no index can be chosen by. -/
inductive WeightFault
  | noWeights
  /-- Below zero, or not a number. -/
  | negative
  | allZero

inductive NumericFault
  | logit (index : Nat) (value : Float32)
  | distribution (fault : WeightFault)
  | reported (detail : String)

/-- Parameters that cannot be served. -/
inductive RequestFault
  | emptyPrompt
  | noTokensWanted
  | temperature (value : Float32)
  | nucleus (value : Float32)
  | promptToken (token vocabulary : Nat)
  | token (token vocabulary : Nat)
  | emptyEntry (slot : Nat)
  | emptyLogits
  | zeroCapacity
  | duplicate (request : Nat)
  | notQueued (request : Nat) (state : String)
  | reported (detail : String)

inductive LoadFault
  | missing (name : String)
  | duplicate (name : String)
  | shape (name : String) (actual expected : List Nat)
  | payload (name : String) (op : String) (expected actual : List Nat)
  | reported (detail : String)

inductive ConfigFault
  | tooSmall (field : String)
  | emptyModel (vocabulary hidden : Nat)
  | noHeads
  | unevenHeads (hidden heads : Nat)
  | unevenGroups (heads kvHeads : Nat)
  | oddHeadDim
  | reported (detail : String)

inductive Error
  | shape (op : String) (expected actual : List Nat)
  | quantization (fault : QuantFault)
  | cacheOverflow (fault : CacheFault)
  | promptTooLong (len maxContext : Nat)
  | numeric (fault : NumericFault)
  | cancelled
  | timeout (detail : String)
  | invalidRequest (fault : RequestFault)
  | requestNotFound (request : Nat)
  | slotNotFound (slot : Nat)
  | invalidTransition (source target : String)
  | unsupportedKernel (level : String)
  | load (fault : LoadFault)
  | config (fault : ConfigFault)
  | unreadableFile
  | malformedJson
  /-- The caller broke a precondition that no other error covers; there is no answer. -/
  | contract (broken : String)

namespace Error

def kind : Error → ErrorKind
  | shape .. => .shapeMismatch
  | quantization _ => .unsupportedQuantization
  | cacheOverflow _ | promptTooLong .. => .cacheOverflow
  | numeric _ => .numericInstability
  | cancelled => .cancelled
  | timeout _ => .timeout
  | invalidRequest _ => .invalidRequest
  | _ => .internal

/-- The name of the case. -/
def name : Error → String
  | shape .. => "ShapeMismatch"
  | quantization _ => "UnsupportedQuantization"
  | cacheOverflow _ => "CacheOverflow"
  | promptTooLong .. => "PromptTooLong"
  | numeric _ => "NumericInstability"
  | cancelled => "Cancelled"
  | timeout _ => "Timeout"
  | invalidRequest _ => "InvalidRequest"
  | requestNotFound _ => "RequestNotFound"
  | slotNotFound _ => "SlotNotFound"
  | invalidTransition .. => "InvalidStateTransition"
  | unsupportedKernel _ => "UnsupportedKernel"
  | load _ => "ModelLoad"
  | config _ => "Config"
  | unreadableFile => "Io"
  | malformedJson => "Json"
  | contract _ => "Contract"

/-- Sizes in brackets, separated by a comma and a blank. -/
def sizes (ns : List Nat) : String :=
  "[" ++ ", ".intercalate (ns.map toString) ++ "]"

def shapeMessage (op : String) (expected actual : List Nat) : String :=
  "shape mismatch in " ++ op ++ ": expected " ++ sizes expected ++ ", got " ++ sizes actual

end Error

def QuantFault.message : QuantFault → String
  | scale value => s!"invalid block scale {Decimal.text value}"
  | code value encoding => s!"code {value} out of range for {encoding}"
  | nonFinite block row => s!"non-finite value in block {block} (row {row})"
  | rank name shape => s!"quantized tensor {name} must be 1-D or 2-D, got {Error.sizes shape}"
  | packedOperand => "matmul operands must be dequantized"
  | reported detail => detail

def CacheFault.message : CacheFault → String
  | slotFull slot capacity => s!"slot {slot} is full at {capacity} positions"
  | overBudget slot delta used budget =>
    s!"slot {slot} needs {delta} more bytes, {used} of {budget} in use"
  | beyondBudget request bytes budget =>
    let whole := match budget with
      | some limit => s!"Some({limit})"
      | none => "None"
    s!"request {request} needs {bytes} bytes, more than the whole budget of {whole}"
  | beyondCapacity request needed slot capacity =>
    s!"request {request} needs {needed} positions, slot {slot} holds {capacity}"
  | evictedFor request => s!"evicted under memory pressure to make room for request {request}"
  | reported detail => detail

def WeightFault.message : WeightFault → String
  | noWeights => "No weights provided in distribution"
  | negative => "A weight is invalid in distribution"
  | allZero => "All weights are zero in distribution"

def NumericFault.message : NumericFault → String
  | logit index value => s!"logit {index} is {Decimal.text value}"
  | distribution fault => s!"failed to build sampling distribution: {fault.message}"
  | reported detail => detail

def RequestFault.message : RequestFault → String
  | emptyPrompt => "empty prompt"
  | noTokensWanted => "max_tokens must be at least 1"
  | temperature value => s!"temperature must be finite, got {Decimal.text value}"
  | nucleus value => s!"top_p must be in (0, 1], got {Decimal.text value}"
  | promptToken t vocabulary => s!"prompt token {t} outside vocabulary of {vocabulary}"
  | .token t vocabulary => s!"token {t} outside vocabulary of {vocabulary}"
  | emptyEntry slot => s!"empty batch entry for slot {slot}"
  | emptyLogits => "cannot sample from empty logits"
  | zeroCapacity => "slot capacity must be positive"
  | duplicate request => s!"request {request} already exists"
  | notQueued request state => s!"request {request} is {state}, expected Queued"
  | reported detail => detail

def LoadFault.message : LoadFault → String
  | missing name => s!"missing tensor {name}"
  | duplicate name => s!"duplicate tensor {name}"
  | shape name actual expected =>
    s!"tensor {name} has shape {Error.sizes actual}, expected {Error.sizes expected}"
  | payload name op expected actual => s!"tensor {name}: {Error.shapeMessage op expected actual}"
  | reported detail => detail

def ConfigFault.message : ConfigFault → String
  | tooSmall field => s!"{field} must be at least 1"
  | emptyModel vocabulary hidden =>
    s!"vocab_size and hidden_size must be non-zero, got {vocabulary} and {hidden}"
  | noHeads => "head counts must be non-zero"
  | unevenHeads hidden heads =>
    s!"hidden_size {hidden} not divisible by num_attention_heads {heads}"
  | unevenGroups heads kvHeads =>
    s!"num_attention_heads {heads} not divisible by num_key_value_heads {kvHeads}"
  | oddHeadDim => "head_dim must be even for RoPE"
  | reported detail => detail

def Error.message : Error → String
  | shape op expected actual => shapeMessage op expected actual
  | quantization fault => "unsupported quantization: " ++ fault.message
  | cacheOverflow fault => "kv cache overflow: " ++ fault.message
  | promptTooLong len maxContext => s!"prompt of {len} tokens exceeds max context {maxContext}"
  | numeric fault => "numeric instability: " ++ fault.message
  | cancelled => "request cancelled"
  | timeout detail => "request timed out: " ++ detail
  | invalidRequest fault => "invalid request: " ++ fault.message
  | requestNotFound request => s!"request {request} not found"
  | slotNotFound slot => s!"kv cache slot {slot} not allocated"
  | invalidTransition source target =>
    "invalid state transition: \"" ++ source ++ "\" -> \"" ++ target ++ "\""
  | unsupportedKernel level => s!"kernel variant {level} is not supported on this host"
  | load fault => "failed to load model: " ++ fault.message
  | config fault => "configuration error: " ++ fault.message
  | unreadableFile => "the file cannot be read"
  | malformedJson => "the text is not the expected JSON"
  | contract broken => "broken contract: " ++ broken

end CausalServe
