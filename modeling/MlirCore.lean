import MlirCore.Affine.Expr
import MlirCore.Affine.Map
import MlirCore.IR.Value
import MlirCore.Affine.Validity
import MlirCore.Affine.Canonicalize
import MlirCore.Affine.Normalizer
import MlirCore.Affine.Coordinates
import MlirCore.Affine.Fold
import MlirCore.Affine.Compose
import MlirCore.Affine.Soundness
import MlirCore.IR.BlockOrder
import MlirCore.IR.Operation
import MlirCore.IR.Traits
import MlirCore.IR.Region
import MlirCore.Transforms.ReplaceMemRef
import MlirCore.Transforms.MemoryOps
import MlirCore.Transforms.ComputationSlice
import MlirCore.Transforms.RemapAccess
import MlirCore.Transforms.ReplaceLoop
import MlirCore.Loops.AffineFor
import MlirCore.Loops.BoundFolder
import MlirCore.Loops.Syntax
import MlirCore.Affine.OpSyntax
