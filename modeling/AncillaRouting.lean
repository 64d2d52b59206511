import AncillaRouting.Config.File
import AncillaRouting.Json.Codec
import AncillaRouting.Slice.Picture
import AncillaRouting.Yaml.Block
import AncillaRouting.Yaml.Flow
import AncillaRouting.Yaml.Lexer
import AncillaRouting.Yaml.Text
import AncillaRouting.Yaml.Token
import AncillaRouting.Search.Walk
import AncillaRouting.Slice.History
import AncillaRouting.Proofs.SliceRefinement
import AncillaRouting.Proofs.RouteOrigins
import AncillaRouting.Proofs.RouterRuns
import AncillaRouting.Proofs.RememberedRoutes
import AncillaRouting.Proofs.RouterModes
import AncillaRouting.Proofs.ReversedQueries
import AncillaRouting.Proofs.SearchCounts
import AncillaRouting.Proofs.Obstacles
import AncillaRouting.Proofs.AlikeSlices
import AncillaRouting.Proofs.SerialForms
import AncillaRouting.Proofs.TieBreaks
import AncillaRouting.Proofs.AnyEstimate
import AncillaRouting.Proofs.ExactSums
import AncillaRouting.Proofs.FaultFreedom
import AncillaRouting.Proofs.RegionJoints
import AncillaRouting.Proofs.Placement
import AncillaRouting.Proofs.Removal
import AncillaRouting.Proofs.FirstFaces
import AncillaRouting.Proofs.Configurations
import AncillaRouting.Proofs.CellListing
import AncillaRouting.Proofs.QueryKeys
import AncillaRouting.Proofs.SearchRounds
import AncillaRouting.Proofs.GridVisits
import AncillaRouting.Proofs.CellSides
import AncillaRouting.Proofs.NearestTarget
import AncillaRouting.Proofs.ParentChains
