import Div0.AccessListKeys
import Div0.ArenaAlloc
import Div0.CallDepth
import Div0.Completion
import Div0.ContractCreation
import Div0.EnvJson
import Div0.JumpTargets
import Div0.MemoryHangs
import Div0.Refunds
import Div0.ReturnBuffers
import Div0.RlpBijection
import Div0.Senders
import Div0.SlotErasure
import Div0.StackSafety
import Div0.StateCommitment
import Div0.TxDecodeLoops
import Div0.WordShifts
import Div0.WorldRefinement
