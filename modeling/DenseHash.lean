import DenseHash.DenseSet
import DenseHash.Proofs.Arena.Sweep
import DenseHash.Proofs.Arena.Undamaged
import DenseHash.Proofs.Cursor.Retain
import DenseHash.Proofs.Enumeration
import DenseHash.Proofs.Equality
import DenseHash.Proofs.Extension
import DenseHash.Proofs.Fallback.Run
import DenseHash.Proofs.FirstBuckets
import DenseHash.Proofs.Fleet
import DenseHash.Proofs.HashFree
import DenseHash.Proofs.LoadFactor
import DenseHash.Proofs.Maintenance
import DenseHash.Proofs.Mixing
import DenseHash.Proofs.Order.Lineup
import DenseHash.Proofs.Recency
import DenseHash.Proofs.Refinement
import DenseHash.Proofs.RoomKept
import DenseHash.Proofs.Table.Positions
import DenseHash.Proofs.Table.Rehash
