import SwiftOutline.Main
import SwiftOutline.Proofs.Declaration.Accessors
import SwiftOutline.Proofs.Declaration.Complete
import SwiftOutline.Proofs.Declaration.Located
import SwiftOutline.Proofs.Declaration.Nesting
import SwiftOutline.Proofs.Declaration.RoundTrip
import SwiftOutline.Proofs.Descriptor.Meaning
import SwiftOutline.Proofs.Descriptor.Optionality
import SwiftOutline.Proofs.Descriptor.Slices
import SwiftOutline.Proofs.Grammar.ErrorPlaces
import SwiftOutline.Proofs.Scan.Reordered
import SwiftOutline.Proofs.Tree.Forest
import SwiftOutline.Proofs.Tree.Pruning
